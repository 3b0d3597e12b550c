import JackVM.Proofs.LabelNumbers
import JackVM.Proofs.Machine

namespace JackVM

/-- A subroutine that is being run, at the line that comes next. -/
structure Config where
  line : Nat
  machine : Machine

/-- The line that marks a label. -/
def lineOf? (body : List Instruction) (l : Label) : Option Nat :=
  body.findIdx? fun i => i = .label l

/-- Runs one line. A return, like the end of the code, is not gone on from. -/
def step (lib : Library) (body : List Instruction) (c : Config) : Option Config :=
  match body[c.line]? with
  | some (.label _) => some ⟨c.line + 1, c.machine⟩
  | some (.goto l) => (lineOf? body l).map fun line => ⟨line, c.machine⟩
  | some (.ifGoto l) =>
    match c.machine.stack with
    | [] => none
    | v :: vs =>
      if v = 0 then some ⟨c.line + 1, { c.machine with stack := vs }⟩
      else (lineOf? body l).map fun line => ⟨line, { c.machine with stack := vs }⟩
  | some i => (i.execute lib c.machine).map fun m => ⟨c.line + 1, m⟩
  | none => none

/-- So many steps, each from a line of a certain kind. -/
inductive Steps (lib : Library) (body : List Instruction) (on : Nat → Prop) :
    Nat → Config → Config → Prop
  | refl (c : Config) : Steps lib body on 0 c c
  | next {n : Nat} {c d e : Config} : on c.line → step lib body c = some d →
      Steps lib body on n d e → Steps lib body on (n + 1) c e

/-- Comes to a state without going on from a line. -/
def Reaches (lib : Library) (body : List Instruction) (stop : Nat) (c d : Config) : Prop :=
  ∃ n, Steps lib body (· ≠ stop) n c d

section Steps

variable {lib : Library} {body : List Instruction} {on on' : Nat → Prop} {n k : Nat}
  {c d e : Config}

theorem Steps.trans (h : Steps lib body on n c d) (hde : Steps lib body on k d e) :
    Steps lib body on (n + k) c e := by
  induction h with
  | refl => simpa using hde
  | next hon hstep _ ih =>
    have hsteps := Steps.next hon hstep (ih hde)
    rwa [Nat.add_right_comm] at hsteps

theorem Steps.mono (h : Steps lib body on n c d) (hsub : ∀ line, on line → on' line) :
    Steps lib body on' n c d := by
  induction h with
  | refl c => exact .refl c
  | next hon hstep _ ih => exact .next (hsub _ hon) hstep ih

/-- The machine can do only one thing at a time. -/
theorem Steps.rest (h : Steps lib body on n c d) (hce : Steps lib body on' (n + k) c e) :
    Steps lib body on' k d e := by
  induction h with
  | refl => simpa using hce
  | @next n c d _ _ hstep _ ih =>
    rw [Nat.add_right_comm] at hce
    cases hce with
    | next _ hstep' hrest =>
      rw [hstep] at hstep'
      cases hstep'
      exact ih hrest

/-- Two runs that cannot be gone on with end alike. -/
theorem Steps.unique (h : Steps lib body on n c d) (hce : Steps lib body on k c e)
    (hd : ∀ j f, ¬Steps lib body on (j + 1) d f) (he : ∀ j f, ¬Steps lib body on (j + 1) e f) :
    d = e := by
  rcases Nat.lt_trichotomy n k with hlt | rfl | hlt
  · obtain ⟨j, rfl⟩ := Nat.exists_eq_add_of_lt hlt
    exact absurd (h.rest hce) (hd j e)
  · cases h.rest (k := 0) hce
    rfl
  · obtain ⟨j, rfl⟩ := Nat.exists_eq_add_of_lt hlt
    exact absurd (hce.rest h) (he j d)

theorem Steps.split (h : Steps lib body on (n + k) c e) :
    ∃ d, Steps lib body on n c d ∧ Steps lib body on k d e := by
  induction n generalizing c with
  | zero => exact ⟨c, .refl c, by simpa using h⟩
  | succ n ih =>
    rw [Nat.add_right_comm] at h
    cases h with
    | next hon hstep hrest =>
      obtain ⟨d, hn, hk⟩ := ih hrest
      exact ⟨d, .next hon hstep hn, hk⟩

end Steps

/-- Some code stands in a subroutine from a line on. -/
def CodeAt (body : List Instruction) : Nat → List Instruction → Prop
  | _, [] => True
  | line, i :: code => body[line]? = some i ∧ CodeAt body (line + 1) code

section CodeAt

variable {body xs ys code : List Instruction} {line : Nat} {i : Instruction} {l : Label}

@[simp] theorem codeAt_nil : CodeAt body line [] := trivial

@[simp] theorem codeAt_cons :
    CodeAt body line (i :: code) ↔ body[line]? = some i ∧ CodeAt body (line + 1) code :=
  Iff.rfl

@[simp] theorem codeAt_append : CodeAt body line (xs ++ ys) ↔
    CodeAt body line xs ∧ CodeAt body (line + xs.length) ys := by
  induction xs generalizing line with
  | nil => simp
  | cons i xs ih =>
    rw [List.cons_append, codeAt_cons, codeAt_cons, ih, and_assoc, List.length_cons,
      Nat.add_right_comm, Nat.add_assoc]

theorem codeAt_self (xs : List Instruction) {ys : List Instruction} :
    CodeAt (xs ++ ys) xs.length ys := by
  induction ys generalizing xs with
  | nil => exact codeAt_nil
  | cons i ys ih =>
    refine ⟨by simp, ?_⟩
    have h := ih (xs ++ [i])
    simpa using h

/-- Labels with different numbers can be told apart, so a jump finds its line. -/
theorem lineOf?_eq (hbody : (labelNumbers body).Nodup) (h : body[line]? = some (.label l)) :
    lineOf? body l = some line := by
  obtain ⟨hlt, hl⟩ := List.getElem?_eq_some_iff.mp h
  rw [lineOf?, List.findIdx?_eq_some_iff_getElem]
  refine ⟨hlt, by simp [hl], ?_⟩
  intro j hj
  have hsplit : body = body.take line ++ .label l :: body.drop (line + 1) := by
    rw [← hl, ← List.drop_eq_getElem_cons hlt, List.take_append_drop]
  rw [hsplit, labelNumbers_append, labelNumbers_cons] at hbody
  have hnot : l.number ∉ labelNumbers (body.take line) := by
    intro hmem
    exact (List.nodup_append.mp hbody).2.2 _ hmem _ (by simp) rfl
  have hbefore : body[j] ∈ body.take line := by
    rw [List.mem_take_iff_getElem]
    exact ⟨j, by omega, rfl⟩
  intro he
  apply hnot
  have he' : body[j] = .label l := by simpa using he
  rw [he'] at hbefore
  exact List.mem_map.mpr ⟨l, mem_labelsOf.mpr hbefore, rfl⟩

end CodeAt

/-- What is seen of a subroutine that is being run, which does not include what expressions use for
themselves. -/
structure Config.Shows (c : Config) (line : Nat) (σ : Store) (stack : List Word) : Prop where
  line : c.line = line
  store : c.machine.toStore = σ
  stack : c.machine.stack = stack

theorem Config.Shows.eq {c : Config} {line : Nat} {σ : Store} {stack : List Word}
    (h : c.Shows line σ stack) : ∃ that temp, c = ⟨line, ⟨σ, stack, that, temp⟩⟩ := by
  obtain ⟨rfl, rfl, rfl⟩ := h
  exact ⟨_, _, rfl⟩

/-- Without leaving a part of the code, a state is come to that has a property. -/
def Leads (lib : Library) (body : List Instruction) (lo hi : Nat) (c : Config)
    (P : Config → Prop) : Prop :=
  ∃ n d, Steps lib body (fun line => lo ≤ line ∧ line < hi) n c d ∧ P d

/-- A part of the code is not left for so many steps. -/
def Lasts (lib : Library) (body : List Instruction) (lo hi : Nat) (n : Nat) (c : Config) : Prop :=
  ∃ d, Steps lib body (fun line => lo ≤ line ∧ line < hi) n c d

section Leads

variable {lib : Library} {body code : List Instruction} {lo hi lo' hi' line n : Nat}
  {c d : Config} {m m' : Machine} {P Q : Config → Prop}

theorem Leads.here (h : P c) : Leads lib body lo hi c P :=
  ⟨0, c, .refl c, h⟩

theorem Leads.bind (h : Leads lib body lo hi c P)
    (hP : ∀ d, P d → Leads lib body lo hi d Q) : Leads lib body lo hi c Q := by
  obtain ⟨n, d, hcd, hd⟩ := h
  obtain ⟨k, e, hde, he⟩ := hP d hd
  exact ⟨n + k, e, hcd.trans hde, he⟩

theorem Leads.mono (h : Leads lib body lo hi c P) (hlo : lo' ≤ lo) (hhi : hi ≤ hi')
    (hPQ : ∀ d, P d → Q d) : Leads lib body lo' hi' c Q := by
  obtain ⟨n, d, hcd, hd⟩ := h
  exact ⟨n, d, hcd.mono fun line hline => ⟨by omega, by omega⟩, hPQ d hd⟩

theorem Leads.next (hlo : lo ≤ c.line) (hhi : c.line < hi) (hstep : step lib body c = some d)
    (h : Leads lib body lo hi d P) : Leads lib body lo hi c P := by
  obtain ⟨n, e, hde, he⟩ := h
  exact ⟨n + 1, e, .next ⟨hlo, hhi⟩ hstep hde, he⟩

theorem Lasts.zero : Lasts lib body lo hi 0 c :=
  ⟨c, .refl c⟩

theorem Lasts.mono (h : Lasts lib body lo hi n c) (hlo : lo' ≤ lo) (hhi : hi ≤ hi') :
    Lasts lib body lo' hi' n c := by
  obtain ⟨d, hcd⟩ := h
  exact ⟨d, hcd.mono fun line hline => ⟨by omega, by omega⟩⟩

theorem Leads.lasts (h : Leads lib body lo hi c P) (hP : ∀ d, P d → Lasts lib body lo hi n d) :
    Lasts lib body lo hi n c := by
  obtain ⟨k, d, hcd, hd⟩ := h
  obtain ⟨e, hde⟩ := hP d hd
  have hce := hcd.trans hde
  rw [Nat.add_comm] at hce
  obtain ⟨d', hcd', -⟩ := hce.split
  exact ⟨d', hcd'⟩

/-- The steps to another state count at least one. -/
theorem Leads.lasts_succ (h : Leads lib body lo hi c P) (hne : ∀ d, P d → d ≠ c)
    (hP : ∀ d, P d → Lasts lib body lo hi n d) : Lasts lib body lo hi (n + 1) c := by
  obtain ⟨k, d, hcd, hd⟩ := h
  cases hcd with
  | refl => exact absurd rfl (hne c hd)
  | next hon hstep hrest =>
    have hlasts := Leads.lasts ⟨_, d, hrest, hd⟩ hP
    obtain ⟨e, he⟩ := hlasts
    exact ⟨e, .next hon hstep he⟩

theorem step_straight {i : Instruction} (hi : i.isStraight = true) (hline : body[line]? = some i) :
    step lib body ⟨line, m⟩ = (i.execute lib m).map fun m => ⟨line + 1, m⟩ := by
  unfold step
  rw [hline]
  cases i with
  | push | pop | op | call => rfl
  | label | goto | ifGoto | function | ret => cases hi

/-- Code without jumps is run line by line. -/
theorem leads_straight (hs : Straight code) (hcode : CodeAt body line code)
    (hrun : run lib code m = some m') (hlo : lo ≤ line) (hhi : line + code.length ≤ hi) :
    Leads lib body lo hi ⟨line, m⟩ (· = ⟨line + code.length, m'⟩) := by
  induction code generalizing line m with
  | nil =>
    cases hrun
    exact .here rfl
  | cons i code ih =>
    obtain ⟨hi, hs⟩ := straight_cons.mp hs
    obtain ⟨hline, hcode⟩ := codeAt_cons.mp hcode
    obtain ⟨m1, hexecute, hrun⟩ := Option.bind_eq_some_iff.mp hrun
    rw [List.length_cons] at hhi
    have hstep : step lib body ⟨line, m⟩ = some ⟨line + 1, m1⟩ := by
      rw [step_straight hi hline, hexecute]
      rfl
    have hrest := ih hs hcode hrun (by omega) (by omega)
    rw [Nat.add_assoc, Nat.add_comm 1] at hrest
    exact .next hlo (by simpa using by omega) hstep hrest

end Leads

end JackVM
