import JackVM.Proofs.GoalSteps

namespace JackVM

section Sequences

variable {g : Goal} {goals : List Goal} {x : Lexeme} {w xs : List Lexeme}

theorem Stop.exists_yields (s : Stop) : ∃ z, s.Yields z := by
  cases s with
  | closeParen | closeBracket | semicolon => exact ⟨_, rfl⟩
  | arguments => exact ⟨_, [], rfl⟩

theorem Stop.not_yields_nil {s : Stop} : ¬s.Yields [] := by
  cases s with
  | closeParen | closeBracket | semicolon => simp [Stop.Yields]
  | arguments => simp [Stop.Yields]

/-- Each goal stands for some tokens, so that what was begun can be finished. -/
theorem Goal.exists_yields (g : Goal) : ∃ w, g.Yields w := by
  cases g with
  | one x => exact ⟨_, rfl⟩
  | name => exact ⟨_, "x", rfl⟩
  | type => exact ⟨_, .int, rfl⟩
  | stop s => exact s.exists_yields
  | term s =>
    obtain ⟨z, hz⟩ := s.exists_yields
    exact ⟨_, .chain .this [], z, hz, rfl⟩
  | afterName s =>
    obtain ⟨z, hz⟩ := s.exists_yields
    exact ⟨_, [], [], z, .inl rfl, hz, rfl⟩
  | operators s =>
    obtain ⟨z, hz⟩ := s.exists_yields
    exact ⟨_, [], z, hz, rfl⟩
  | arguments => exact ⟨_, [], rfl⟩
  | afterCallee => exact ⟨_, .inl ⟨[], rfl⟩⟩
  | afterTarget => exact ⟨_, .inl ⟨.chain .this [], rfl⟩⟩
  | value v =>
    cases v with
    | true => exact ⟨_, rfl⟩
    | false => exact ⟨_, .chain .this [], rfl⟩
  | statements v => exact ⟨_, [], trivial, rfl⟩
  | otherwise v => exact ⟨_, .inl ⟨[], trivial, rfl⟩⟩
  | moreNames => exact ⟨_, [], rfl⟩
  | parameters => exact ⟨_, [], rfl⟩
  | moreParameters => exact ⟨_, [], rfl⟩
  | locals v => exact ⟨_, [], [], trivial, rfl⟩
  | routine => exact ⟨_, ⟨.function, none, "f", [], [], []⟩, trivial, rfl⟩
  | routines => exact ⟨_, [], by simp, rfl⟩
  | members => exact ⟨_, [], [], by simp, rfl⟩

theorem Goal.not_yields_nil : ¬g.Yields [] := by
  intro h
  cases g with
  | one x => cases h
  | name => simp [Goal.Yields] at h
  | type => simp [Goal.Yields] at h
  | stop s => exact Stop.not_yields_nil h
  | term s | operators s => simp [Goal.Yields, Stop.not_yields_nil] at h
  | afterName s =>
    obtain ⟨tail, ops, z, -, hz, h⟩ := h
    obtain ⟨-, -, rfl⟩ : tail = [] ∧ operationLexemes ops = [] ∧ z = [] := by simpa using h
    exact Stop.not_yields_nil hz
  | arguments => simp [Goal.Yields] at h
  | afterCallee => exact not_isCallTail_nil h
  | afterTarget => simp [Goal.Yields] at h
  | value v => cases v <;> simp [Goal.Yields] at h
  | statements v => simp [Goal.Yields] at h
  | otherwise v => simp [Goal.Yields] at h
  | moreNames => simp [Goal.Yields] at h
  | parameters => simp [Goal.Yields] at h
  | moreParameters => simp [Goal.Yields] at h
  | locals v => simp [Goal.Yields] at h
  | routine => simp [Goal.Yields, RoutineTree.lexemes] at h
  | routines => simp [Goal.Yields] at h
  | members => simp [Goal.Yields] at h

theorem exists_allYield (goals : List Goal) : ∃ w, AllYield goals w := by
  induction goals with
  | nil => exact ⟨[], rfl⟩
  | cons g goals ih =>
    obtain ⟨u, hu⟩ := g.exists_yields
    obtain ⟨v, hv⟩ := ih
    exact ⟨u ++ v, .cons hu hv⟩

theorem goals_eq_nil_of_allYield (h : AllYield goals []) : goals = [] := by
  cases goals with
  | nil => rfl
  | cons g goals =>
    obtain ⟨u, v, huv, hu, -⟩ := h
    obtain ⟨rfl, -⟩ := List.append_eq_nil_iff.mp huv.symm
    exact absurd hu Goal.not_yields_nil

theorem allYield_cons : AllYield goals (x :: w) ↔
    ∃ left, advance goals x = some left ∧ AllYield left w := by
  cases goals with
  | nil => simp [AllYield, advance]
  | cons g goals =>
    constructor
    · rintro ⟨_ | ⟨y, u⟩, v, huv, hu, hv⟩
      · exact absurd hu Goal.not_yields_nil
      · obtain ⟨rfl, rfl⟩ := List.cons.inj huv
        obtain ⟨mid, hnext, hmid⟩ := Goal.yields_cons.mp hu
        exact ⟨mid ++ goals, by simp [advance, hnext], allYield_append.mpr ⟨u, v, rfl, hmid, hv⟩⟩
    · rintro ⟨left, h, hw⟩
      obtain ⟨mid, hnext, rfl⟩ := Option.map_eq_some_iff.mp h
      obtain ⟨u, v, rfl, hu, hv⟩ := allYield_append.mp hw
      exact ⟨x :: u, v, rfl, Goal.yields_cons.mpr ⟨mid, hnext, hu⟩, hv⟩

/-- Tokens go on to what goals stand for in the way that the goals left of them say. -/
theorem allYield_consume : AllYield goals (xs ++ w) ↔
    ∃ left, consume goals xs = some left ∧ AllYield left w := by
  induction xs generalizing goals with
  | nil => simp [consume]
  | cons x xs ih =>
    rw [List.cons_append, allYield_cons]
    simp only [ih, consume, Option.bind_eq_some_iff]
    constructor
    · rintro ⟨mid, hmid, left, hleft, hw⟩
      exact ⟨left, ⟨mid, hmid, hleft⟩, hw⟩
    · rintro ⟨left, ⟨mid, hmid, hleft⟩, hw⟩
      exact ⟨mid, hmid, left, hleft, hw⟩

theorem consume_append (goals : List Goal) (xs ys : List Lexeme) :
    consume goals (xs ++ ys) = (consume goals xs).bind fun left => consume left ys := by
  induction xs generalizing goals with
  | nil => rfl
  | cons x xs ih =>
    simp only [List.cons_append, consume, Option.bind_assoc]
    exact congrArg _ (funext fun mid => ih mid)

end Sequences

section Start

variable {xs : List Lexeme} {left : List Goal}

/-- A class. -/
def start : List Goal :=
  [.one (.keyword .kwClass), .name, .one (.symbol .openBrace), .members]

theorem isSentence_iff : IsSentence xs ↔ AllYield start xs := by
  constructor
  · rintro ⟨c, hc, rfl⟩
    have hmembers : AllYield [.members] (c.variableGroups.flatMap ClassVariables.lexemes ++
        (c.routines.flatMap RoutineTree.lexemes ++ [Lexeme.symbol .closeBrace])) :=
      allYield_singleton.mpr ⟨c.variableGroups, c.routines, hc, rfl⟩
    refine allYield_one.mpr ⟨_, rfl, allYield_name.mpr ⟨c.name, _, rfl, ?_⟩⟩
    exact allYield_one.mpr ⟨_, rfl, by simpa using hmembers⟩
  · intro h
    obtain ⟨_, rfl, hname⟩ := allYield_one.mp h
    obtain ⟨name, _, rfl, hopen⟩ := allYield_name.mp hname
    obtain ⟨_, rfl, hmembers⟩ := allYield_one.mp hopen
    obtain ⟨vs, rs, hrs, rfl⟩ := allYield_singleton.mp hmembers
    exact ⟨⟨⟨name, vs⟩, rs⟩, hrs, by simp [ClassTree.lexemes, braced]⟩

theorem beginsSentence_iff : BeginsSentence xs ↔ (consume start xs).isSome := by
  constructor
  · rintro ⟨ys, h⟩
    obtain ⟨left, hleft, -⟩ := allYield_consume.mp (isSentence_iff.mp h)
    simp [hleft]
  · intro h
    obtain ⟨left, hleft⟩ := Option.isSome_iff_exists.mp h
    obtain ⟨ys, hys⟩ := exists_allYield left
    exact ⟨ys, isSentence_iff.mpr (allYield_consume.mpr ⟨left, hleft, hys⟩)⟩

/-- Where goals are left, tokens are missing. -/
theorem exists_sentence_of_consume (h : consume start xs = some left) (hleft : left ≠ []) :
    ∃ ys, ys ≠ [] ∧ IsSentence (xs ++ ys) := by
  obtain ⟨ys, hys⟩ := exists_allYield left
  refine ⟨ys, ?_, isSentence_iff.mpr (allYield_consume.mpr ⟨left, h, hys⟩)⟩
  rintro rfl
  exact hleft (goals_eq_nil_of_allYield hys)

end Start

end JackVM
