import JackVM.Proofs.CurrentObject
import JackVM.Proofs.Places
import JackVM.Proofs.Stepping

namespace JackVM

/-- The pointer to the current object is set on one line and on no other. -/
def BindsAt (body : List Instruction) (line : Nat) : Prop :=
  ∀ k, body[k]? = some (.pop .pointer 0) ↔ k = line

theorem bindsAt_append {first rest : List Instruction} (hfirst : .pop .pointer 0 ∉ first)
    (hrest : .pop .pointer 0 ∉ rest) :
    BindsAt (first ++ .pop .pointer 0 :: rest) first.length := by
  intro k
  constructor
  · intro hk
    rcases Nat.lt_trichotomy k first.length with hlt | heq | hgt
    · rw [List.getElem?_append_left hlt] at hk
      exact absurd (List.mem_of_getElem? hk) hfirst
    · exact heq
    · obtain ⟨j, hj⟩ := Nat.exists_eq_add_of_lt hgt
      have hsub : k - first.length = j + 1 := by omega
      rw [List.getElem?_append_right (by omega), hsub, List.getElem?_cons_succ] at hk
      exact absurd (List.mem_of_getElem? hk) hrest
  · rintro rfl
    simp

/-- The first argument of a method and the pointer stand for the same object, which is the one that
the method was called on, on all lines after the first two. -/
structure KeepsReceiver (ρ : Scope) (body : List Instruction) : Prop where
  argument : .pop .argument 0 ∉ body
  names {x : String} {v : Variable} : ρ.find? x = some v → v.segment = .argument → v.index ≠ 0
  agrees {lib : Library} {n : Nat} {m : Machine} {d : Config} :
    Steps lib body (fun _ => True) (n + 2) ⟨0, m⟩ d →
      d.machine.frame.this = d.machine.frame.arguments 0 ∧
        d.machine.frame.arguments 0 = m.frame.arguments 0

/-- A subroutine sets the pointer to its object once, at its start, if it has an object. -/
def BindsReceiver (c : ClassHead) (r : RoutineTree) (body : List Instruction) : Prop :=
  match r.kind with
  | .constructor =>
    body.take 3 = [.push .constant c.objectSize, .call "Memory.alloc" 1, .pop .pointer 0] ∧
      BindsAt body 2
  | .method =>
    body.take 2 = [.push .argument 0, .pop .pointer 0] ∧ BindsAt body 1 ∧
      KeepsReceiver (c.scope r) body
  | .function => .pop .pointer 0 ∉ body

section Execution

variable {lib : Library} {m m' : Machine} {i : Instruction} {body : List Instruction}
  {c d : Config} {n : Nat} {w : Word}

theorem write_keeps {v : Word} {segment : Segment} {k : Nat} (h : m.write v segment k = some m')
    (hpointer : segment = .pointer → k ≠ 0) (hargument : segment = .argument → k ≠ 0) :
    m'.frame.this = m.frame.this ∧ m'.frame.arguments 0 = m.frame.arguments 0 := by
  cases segment with
  | constant => cases h
  | argument =>
    have hk : 0 ≠ k := (hargument rfl).symm
    cases h
    exact ⟨rfl, Function.update_of_ne hk _ _⟩
  | localVar | staticVar | this | that | temp =>
    cases h
    exact ⟨rfl, rfl⟩
  | pointer =>
    match k, hpointer rfl with
    | 0, hk => exact absurd rfl hk
    | 1, _ =>
      cases h
      exact ⟨rfl, rfl⟩
    | k + 2, _ => cases h

/-- Only two instructions change the cells that stand for the current object of a method. -/
theorem execute_keeps (h : i.execute lib m = some m') (hpointer : i ≠ .pop .pointer 0)
    (hargument : i ≠ .pop .argument 0) :
    m'.frame.this = m.frame.this ∧ m'.frame.arguments 0 = m.frame.arguments 0 := by
  cases i with
  | push segment k =>
    rw [Instruction.execute] at h
    obtain ⟨v, -, rfl⟩ := Option.map_eq_some_iff.mp h
    exact ⟨rfl, rfl⟩
  | pop segment k =>
    cases hstack : m.stack with
    | nil => simp [Instruction.execute, hstack] at h
    | cons v vs =>
      have hwrite : { m with stack := vs }.write v segment k = some m' := by
        simpa [Instruction.execute, hstack] using h
      apply write_keeps hwrite
      · rintro rfl rfl
        exact hpointer rfl
      · rintro rfl rfl
        exact hargument rfl
  | op o =>
    rw [Instruction.execute] at h
    obtain ⟨vs, -, rfl⟩ := Option.map_eq_some_iff.mp h
    exact ⟨rfl, rfl⟩
  | call name arguments =>
    simp only [Instruction.execute, Machine.call] at h
    split at h
    next =>
      cases h
      exact ⟨rfl, rfl⟩
    next => cases h
  | label | goto | ifGoto | function | ret => simp [Instruction.execute] at h

/-- A method is past its first two lines, and both cells hold a word. -/
structure Config.Holds (c : Config) (w : Word) : Prop where
  line : 2 ≤ c.line
  this : c.machine.frame.this = w
  argument : c.machine.frame.arguments 0 = w

/-- No jump goes back to the first two lines. -/
theorem two_le_lineOf? {l : Label} {line : Nat}
    (hstart : body.take 2 = [.push .argument 0, .pop .pointer 0])
    (h : lineOf? body l = some line) : 2 ≤ line := by
  obtain ⟨hlt, hlabel, -⟩ := List.findIdx?_eq_some_iff_getElem.mp h
  by_contra hline
  have htake : body[line] ∈ body.take 2 := by
    rw [List.mem_take_iff_getElem]
    exact ⟨line, by omega, rfl⟩
  have hi : body[line] = .label l := by simpa using hlabel
  rw [hstart, hi] at htake
  simp at htake

theorem step_holds (hstart : body.take 2 = [.push .argument 0, .pop .pointer 0])
    (hbinds : BindsAt body 1) (hargument : .pop .argument 0 ∉ body)
    (h : step lib body c = some d) (hc : c.Holds w) : d.Holds w := by
  obtain ⟨line, m⟩ := c
  obtain ⟨hline, hthis, harg⟩ := hc
  dsimp only at hline hthis harg
  cases hi : body[line]? with
  | none => simp [step, hi] at h
  | some i =>
    by_cases hs : i.isStraight = true
    · rw [step_straight hs hi] at h
      obtain ⟨m', hexecute, rfl⟩ := Option.map_eq_some_iff.mp h
      -- the only line that sets the pointer is behind
      have hpointer : i ≠ .pop .pointer 0 := by
        rintro rfl
        have hone := (hbinds line).mp hi
        omega
      have hpop : i ≠ .pop .argument 0 := by
        rintro rfl
        exact hargument (List.mem_of_getElem? hi)
      obtain ⟨hthis', harg'⟩ := execute_keeps hexecute hpointer hpop
      exact ⟨Nat.le_succ_of_le hline, hthis'.trans hthis, harg'.trans harg⟩
    · cases i with
      | push | pop | op | call => exact absurd rfl hs
      | label l =>
        simp only [step, hi, Option.some.injEq] at h
        subst h
        exact ⟨Nat.le_succ_of_le hline, hthis, harg⟩
      | goto l =>
        simp only [step, hi] at h
        obtain ⟨line', hl, rfl⟩ := Option.map_eq_some_iff.mp h
        exact ⟨two_le_lineOf? hstart hl, hthis, harg⟩
      | ifGoto l =>
        simp only [step, hi] at h
        split at h
        next => cases h
        next v vs hstack =>
          split at h
          next =>
            cases h
            exact ⟨Nat.le_succ_of_le hline, hthis, harg⟩
          next =>
            obtain ⟨line', hl, rfl⟩ := Option.map_eq_some_iff.mp h
            exact ⟨two_le_lineOf? hstart hl, hthis, harg⟩
      | function | ret => simp [step, hi, Instruction.execute] at h

theorem steps_holds (hstart : body.take 2 = [.push .argument 0, .pop .pointer 0])
    (hbinds : BindsAt body 1) (hargument : .pop .argument 0 ∉ body)
    (h : Steps lib body (fun _ => True) n c d) (hc : c.Holds w) : d.Holds w := by
  induction h with
  | refl => exact hc
  | next _ hstep _ ih => exact ih (step_holds hstart hbinds hargument hstep hc)

/-- The first two steps copy the argument to the pointer. -/
theorem prologue_holds (hstart : body.take 2 = [.push .argument 0, .pop .pointer 0])
    (h : Steps lib body (fun _ => True) 2 ⟨0, m⟩ d) : d.Holds (m.frame.arguments 0) := by
  have hline (k : Nat) (hk : k < 2) :
      body[k]? = ([.push .argument 0, .pop .pointer 0] : List Instruction)[k]? := by
    rw [← hstart, List.getElem?_take_of_lt hk]
  cases h with
  | next _ hfirst hrest =>
    cases hrest with
    | next _ hsecond hrest =>
      cases hrest
      simp only [step, hline 0 (by omega), List.getElem?_cons_zero, Instruction.execute,
        Machine.read, Option.map_some, Option.some.injEq] at hfirst
      subst hfirst
      have hone : body[0 + 1]? = some (.pop .pointer 0) := hline 1 (by omega)
      simp only [step, hone, Instruction.execute, Machine.write, Option.map_some,
        Option.some.injEq] at hsecond
      subst hsecond
      exact ⟨Nat.le_refl _, rfl, rfl⟩

end Execution

namespace ClassHead

variable {c : ClassHead} {r : RoutineTree}

theorem pop_argument_notMem (hr : r.kind = .method) (n : Nat) :
    .pop .argument 0 ∉ statementCode (c.scope r) r.body n := by
  intro hmem
  obtain ⟨x, v, -, hv, hsegment, hindex⟩ := (meets_statements _ r.body n).of_pop hmem rfl
  have hpos := index_pos_of_argument hr hv (Variable.segment_eq_argument.mp hsegment.symm)
  omega

theorem bindsReceiver_bodyCode (n : Nat) : BindsReceiver c r (c.bodyCode r n) := by
  have hstatements := (meets_statements (c.scope r) r.body n).pop_pointer_notMem
  unfold BindsReceiver bodyCode
  cases hr : r.kind with
  | constructor =>
    have hfirst : .pop .pointer 0 ∉
        [.push .constant c.objectSize, Instruction.call "Memory.alloc" 1] := by simp
    exact ⟨rfl, bindsAt_append hfirst hstatements⟩
  | method =>
    have hfirst : .pop .pointer 0 ∉ [Instruction.push .argument 0] := by simp
    have hbinds := bindsAt_append hfirst hstatements
    have hargument : .pop .argument 0 ∉
        prologue .method c.objectSize ++ statementCode (c.scope r) r.body n := by
      simpa [prologue] using pop_argument_notMem hr n
    refine ⟨rfl, hbinds, hargument, ?_, ?_⟩
    · intro x v hv hsegment
      have hpos := index_pos_of_argument hr hv (Variable.segment_eq_argument.mp hsegment)
      omega
    · intro lib k m d h
      -- the two lines of the prologue first, and from there on the invariant
      rw [Nat.add_comm] at h
      obtain ⟨e, hstart, hrest⟩ := h.split
      have hd := steps_holds rfl hbinds hargument hrest (prologue_holds rfl hstart)
      exact ⟨hd.this.trans hd.argument.symm, hd.argument⟩
  | function => exact hstatements

end ClassHead

/-- Constructors and methods set the pointer to their object once, right at the start, and functions
never do. A method's object is found in two cells, which hold the same from then on. -/
theorem subroutines_bindReceiver {source : String} {code : List Instruction}
    (h : compileInstructions source = .ok code) :
    ∃ c : ClassTree, c.IsReadFrom source ∧ List.Forall₂
      (fun r sub => BindsReceiver c.toClassHead r sub.body) c.routines (subroutines code) :=
  forall₂_of_compileInstructions h fun _ _ n _ => ClassHead.bindsReceiver_bodyCode n

def cellSource : String :=
  "class A { field A x; constructor A n() { return this; } method A g() { do g(); return this; } }"

/-- A constructor, and a method that uses its object in both ways. -/
def cellSubroutines : List Subroutine :=
  [⟨"A.n", 0, [.push .constant 1, .call "Memory.alloc" 1, .pop .pointer 0, .push .pointer 0, .ret]⟩,
    ⟨"A.g", 0, [.push .argument 0, .pop .pointer 0, .push .pointer 0, .call "A.g" 1, .pop .temp 0,
      .push .argument 0, .ret]⟩]

theorem compile_cell : compileInstructions cellSource =
    .ok (cellSubroutines.flatMap fun sub => .function sub.name sub.locals :: sub.body) :=
  ok_of_toOption (by decide +kernel)

theorem bindReceiver_cell : ∃ c : ClassTree, c.IsReadFrom cellSource ∧ List.Forall₂
    (fun r sub => BindsReceiver c.toClassHead r sub.body) c.routines cellSubroutines :=
  subroutines_bindReceiver compile_cell

end JackVM
