import JackVM.Proofs.Goals

namespace JackVM

section Statements

variable {x : Lexeme} {w : List Lexeme} {goals : List Goal} {v : Bool}

theorem yields_value_cons : (Goal.value v).Yields (x :: w) ↔
    ∃ goals, (Goal.value v).next x = some goals ∧ AllYield goals w := by
  cases v with
  | true =>
    constructor
    · intro h
      obtain ⟨rfl, rfl⟩ := List.cons.inj h
      exact ⟨[], rfl, rfl⟩
    · rintro ⟨goals, h, hw⟩
      simp only [Goal.next] at h
      split at h <;> cases h
      next hx => rw [hx, allYield_nil.mp hw]; rfl
  | false =>
    refine Iff.trans ?_ yields_term_cons
    constructor
    · rintro ⟨e, h⟩
      exact ⟨e, _, rfl, h⟩
    · rintro ⟨e, z, rfl, h⟩
      exact ⟨e, h⟩

theorem allYield_block :
    AllYield (.one (.symbol .openBrace) :: .statements v :: goals) w ↔
      ∃ ss u, StatementsReturn v ss ∧ w = braced (statementLexemes ss) ++ u ∧ AllYield goals u := by
  rw [allYield_one]
  constructor
  · rintro ⟨_, rfl, _, u, rfl, ⟨ss, hss, rfl⟩, hu⟩
    exact ⟨ss, u, hss, rfl, hu⟩
  · rintro ⟨ss, u, hss, rfl, hu⟩
    exact ⟨_, rfl, _, u, rfl, ⟨ss, hss, rfl⟩, hu⟩

/-- A condition in parentheses and the block that depends on it. -/
theorem allYield_guarded :
    AllYield (.one (.symbol .openParen) :: .term .closeParen :: .one (.symbol .openBrace) ::
        .statements v :: goals) w ↔
      ∃ (c : Expression) (ss : List Statement) (u : List Lexeme), StatementsReturn v ss ∧
        w = .symbol .openParen ::
          (c.lexemes ++ .symbol .closeParen :: (braced (statementLexemes ss) ++ u)) ∧
        AllYield goals u := by
  rw [allYield_one]
  constructor
  · rintro ⟨_, rfl, _, _, rfl, ⟨c, _, rfl, rfl⟩, hblock⟩
    obtain ⟨ss, u, hss, rfl, hu⟩ := allYield_block.mp hblock
    exact ⟨c, ss, u, hss, by simp, hu⟩
  · rintro ⟨c, ss, u, hss, rfl, hu⟩
    have hblock := allYield_block.mpr ⟨ss, u, hss, rfl, hu⟩
    exact ⟨_, rfl, c.lexemes ++ [Lexeme.symbol .closeParen], _, by simp, ⟨c, _, rfl, rfl⟩, hblock⟩

/-- The tokens of a statement after its first. -/
theorem next_of_yields_statements (h : (Goal.statements v).Yields (x :: w)) :
    ∃ goals, nextOfStatements v x = some goals ∧ AllYield goals w := by
  obtain ⟨_ | ⟨st, ss⟩, hss, h⟩ := h
  · obtain ⟨rfl, rfl⟩ := List.cons.inj h
    exact ⟨[], rfl, rfl⟩
  obtain ⟨hst, hss⟩ := hss
  have hrest : AllYield [.statements v] (statementLexemes ss ++ [Lexeme.symbol .closeBrace]) :=
    allYield_singleton.mpr ⟨ss, hss, rfl⟩
  rw [statementLexemes, List.append_assoc] at h
  rcases st with ⟨y, e⟩ | ⟨y, i, e⟩ | ⟨c, yes, _ | no⟩ | ⟨c, body⟩ | ⟨q, f, es⟩ | _ | e
  case assign =>
    obtain ⟨rfl, rfl⟩ := List.cons.inj h
    have htarget : Goal.afterTarget.Yields
        (.symbol .equal :: (e.lexemes ++ [Lexeme.symbol .semicolon])) := .inl ⟨e, rfl⟩
    exact ⟨_, rfl, allYield_name.mpr ⟨y, _, rfl, .cons htarget hrest⟩⟩
  case assignElement =>
    obtain ⟨rfl, rfl⟩ := List.cons.inj h
    have htarget : Goal.afterTarget.Yields (.symbol .openBracket :: (i.lexemes ++
        .symbol .closeBracket :: .symbol .equal :: (e.lexemes ++ [Lexeme.symbol .semicolon]))) :=
      .inr ⟨i, e, rfl⟩
    exact ⟨_, rfl, allYield_name.mpr ⟨y, _, rfl, .cons htarget hrest⟩⟩
  case branch.none =>
    obtain ⟨rfl, rfl⟩ := List.cons.inj h
    have hend : AllYield [.otherwise v] (statementLexemes ss ++ [Lexeme.symbol .closeBrace]) :=
      allYield_singleton.mpr (.inl ⟨ss, hss, rfl⟩)
    exact ⟨_, rfl, allYield_guarded.mpr ⟨c, yes, _, hst, by simp, hend⟩⟩
  case branch.some =>
    obtain ⟨rfl, rfl⟩ := List.cons.inj h
    obtain ⟨hyes, hno⟩ := hst
    have hend : AllYield [.otherwise v] (.keyword .kwElse :: (braced (statementLexemes no) ++
        (statementLexemes ss ++ [Lexeme.symbol .closeBrace]))) :=
      allYield_singleton.mpr (.inr ⟨no, ss, hno, hss, rfl⟩)
    exact ⟨_, rfl, allYield_guarded.mpr ⟨c, yes, _, hyes, by simp, hend⟩⟩
  case loop =>
    obtain ⟨rfl, rfl⟩ := List.cons.inj h
    exact ⟨_, rfl, allYield_guarded.mpr ⟨c, body, _, hst, by simp, hrest⟩⟩
  case perform =>
    obtain ⟨rfl, rfl⟩ := List.cons.inj h
    have hsemicolon : AllYield [.one (.symbol .semicolon), .statements v]
        (.symbol .semicolon :: (statementLexemes ss ++ [Lexeme.symbol .closeBrace])) :=
      allYield_one.mpr ⟨_, rfl, hrest⟩
    cases q with
    | none =>
      have hcall : Goal.afterCallee.Yields (.symbol .openParen ::
          (argumentLexemes es ++ [Lexeme.symbol .closeParen])) := .inl ⟨es, rfl⟩
      refine ⟨_, rfl, allYield_name.mpr ⟨f, _, ?_, .cons hcall hsemicolon⟩⟩
      simp [callLexemes, calleeLexemes]
    | some q =>
      have hcall : Goal.afterCallee.Yields (.symbol .dot :: .identifier f :: .symbol .openParen ::
          (argumentLexemes es ++ [Lexeme.symbol .closeParen])) := .inr ⟨f, es, rfl⟩
      refine ⟨_, rfl, allYield_name.mpr ⟨q, _, ?_, .cons hcall hsemicolon⟩⟩
      simp [callLexemes, calleeLexemes]
  case giveBack.none =>
    obtain ⟨rfl, rfl⟩ := List.cons.inj h
    cases v with
    | true => exact ⟨_, rfl, allYield_one.mpr ⟨_, rfl, hrest⟩⟩
    | false => cases hst
  case giveBack.some =>
    obtain ⟨rfl, rfl⟩ := List.cons.inj h
    cases v with
    | true => cases hst
    | false => exact ⟨_, rfl, .cons ⟨e, rfl⟩ hrest⟩

theorem yields_statements_of_next (h : nextOfStatements v x = some goals) (hw : AllYield goals w) :
    (Goal.statements v).Yields (x :: w) := by
  have hmore (st : Statement) {u : List Lexeme} (hst : st.Returns v) (hu : st.lexemes = x :: u)
      {z : List Lexeme} (hz : AllYield [.statements v] z) :
      (Goal.statements v).Yields (x :: (u ++ z)) := by
    obtain ⟨ss, hss, rfl⟩ := allYield_singleton.mp hz
    exact ⟨st :: ss, ⟨hst, hss⟩, by simp [statementLexemes, hu]⟩
  unfold nextOfStatements at h
  split at h <;> cases h
  next =>
    obtain ⟨y, _, rfl, u, z, rfl, htarget, hz⟩ := allYield_name.mp hw
    rcases htarget with ⟨e, rfl⟩ | ⟨i, e, rfl⟩
    · exact hmore (.assign y e) trivial rfl hz
    · exact hmore (.assignElement y i e) trivial rfl hz
  next =>
    obtain ⟨c, yes, u, hyes, rfl, hu⟩ := allYield_guarded.mp hw
    rcases allYield_singleton.mp hu with ⟨ss, hss, rfl⟩ | ⟨no, ss, hno, hss, rfl⟩
    · exact ⟨.branch c yes none :: ss, ⟨hyes, hss⟩, by simp [statementLexemes, Statement.lexemes]⟩
    · exact ⟨.branch c yes (some no) :: ss, ⟨⟨hyes, hno⟩, hss⟩,
        by simp [statementLexemes, Statement.lexemes]⟩
  next =>
    obtain ⟨c, body, u, hbody, rfl, hu⟩ := allYield_guarded.mp hw
    obtain ⟨ss, hss, rfl⟩ := allYield_singleton.mp hu
    exact ⟨.loop c body :: ss, ⟨hbody, hss⟩, by simp [statementLexemes, Statement.lexemes]⟩
  next =>
    obtain ⟨y, _, rfl, u, _, rfl, hcall, hend⟩ := allYield_name.mp hw
    obtain ⟨z, rfl, hz⟩ := allYield_one.mp hend
    obtain ⟨ss, hss, rfl⟩ := allYield_singleton.mp hz
    rcases hcall with ⟨es, rfl⟩ | ⟨f, es, rfl⟩
    · exact ⟨.perform none y es :: ss, ⟨trivial, hss⟩,
        by simp [statementLexemes, Statement.lexemes, callLexemes, calleeLexemes]⟩
    · exact ⟨.perform (some y) f es :: ss, ⟨trivial, hss⟩,
        by simp [statementLexemes, Statement.lexemes, callLexemes, calleeLexemes]⟩
  next =>
    obtain ⟨u, z, rfl, hvalue, hz⟩ := hw
    cases v with
    | true =>
      cases hvalue
      exact hmore (.giveBack none) rfl rfl hz
    | false =>
      obtain ⟨e, rfl⟩ := hvalue
      exact hmore (.giveBack (some e)) rfl rfl hz
  next => exact ⟨[], trivial, by rw [allYield_nil.mp hw]; rfl⟩

theorem yields_statements_cons : (Goal.statements v).Yields (x :: w) ↔
    ∃ goals, nextOfStatements v x = some goals ∧ AllYield goals w :=
  ⟨next_of_yields_statements, fun ⟨_, h, hw⟩ => yields_statements_of_next h hw⟩

theorem yields_otherwise_cons : (Goal.otherwise v).Yields (x :: w) ↔
    ∃ goals, (Goal.otherwise v).next x = some goals ∧ AllYield goals w := by
  constructor
  · rintro (h | ⟨no, ss, hno, hss, h⟩)
    · obtain ⟨goals, hnext, hw⟩ := yields_statements_cons.mp h
      have hx : x ≠ .keyword .kwElse := by
        rintro rfl
        cases hnext
      exact ⟨goals, by simpa [Goal.next, hx] using hnext, hw⟩
    · obtain ⟨rfl, rfl⟩ := List.cons.inj h
      have hrest : AllYield [.statements v] (statementLexemes ss ++ [Lexeme.symbol .closeBrace]) :=
        allYield_singleton.mpr ⟨ss, hss, rfl⟩
      exact ⟨_, rfl, allYield_block.mpr ⟨no, _, hno, rfl, hrest⟩⟩
  · rintro ⟨goals, h, hw⟩
    simp only [Goal.next] at h
    split at h
    next hx =>
      cases h
      obtain ⟨no, u, hno, rfl, hu⟩ := allYield_block.mp hw
      obtain ⟨ss, hss, rfl⟩ := allYield_singleton.mp hu
      exact .inr ⟨no, ss, hno, hss, by rw [hx]⟩
    next => exact .inl (yields_statements_cons.mpr ⟨goals, h, hw⟩)

end Statements

section Members

variable {x : Lexeme} {w : List Lexeme} {goals : List Goal} {v : Bool}

theorem nextOfType_eq_some : nextOfType x = some goals ↔ goals = [] ∧ ∃ ty : TypeName, x = ty.lexeme := by
  constructor
  · intro h
    unfold nextOfType at h
    split at h <;> cases h
    next => exact ⟨rfl, .int, rfl⟩
    next => exact ⟨rfl, .char, rfl⟩
    next => exact ⟨rfl, .boolean, rfl⟩
    next name => exact ⟨rfl, .ofClass name, rfl⟩
  · rintro ⟨rfl, ty, rfl⟩
    cases ty <;> rfl

theorem nextOfType_lexeme (ty : TypeName) : nextOfType ty.lexeme = some [] :=
  nextOfType_eq_some.mpr ⟨rfl, ty, rfl⟩

theorem yields_name_cons : Goal.name.Yields (x :: w) ↔
    ∃ goals, Goal.name.next x = some goals ∧ AllYield goals w := by
  constructor
  · rintro ⟨name, h⟩
    obtain ⟨rfl, rfl⟩ := List.cons.inj h
    exact ⟨[], rfl, rfl⟩
  · rintro ⟨goals, h, hw⟩
    cases x <;> cases h
    next name => exact ⟨name, congrArg _ hw⟩

theorem yields_type_cons : Goal.type.Yields (x :: w) ↔
    ∃ goals, nextOfType x = some goals ∧ AllYield goals w := by
  constructor
  · rintro ⟨ty, h⟩
    obtain ⟨rfl, rfl⟩ := List.cons.inj h
    exact ⟨[], nextOfType_lexeme ty, rfl⟩
  · rintro ⟨goals, h, hw⟩
    obtain ⟨rfl, ty, rfl⟩ := nextOfType_eq_some.mp h
    exact ⟨ty, congrArg _ hw⟩

theorem nameLexemes_eq (first : String) (xs : List String) : nameLexemes first xs =
    .identifier first ::
      (xs.flatMap (fun x => [Lexeme.symbol .comma, .identifier x]) ++ [Lexeme.symbol .semicolon]) := by
  induction xs generalizing first with
  | nil => rfl
  | cons x xs ih => simp [nameLexemes, ih]

theorem parameterLexemes_cons (p : Parameter) (ps : List Parameter) : parameterLexemes (p :: ps) =
    p.lexemes ++ ps.flatMap fun p => .symbol .comma :: p.lexemes := by
  induction ps generalizing p with
  | nil => simp [parameterLexemes]
  | cons q ps ih => simp [parameterLexemes, ih]

theorem yields_moreNames_cons : Goal.moreNames.Yields (x :: w) ↔
    ∃ goals, Goal.moreNames.next x = some goals ∧ AllYield goals w := by
  constructor
  · rintro ⟨_ | ⟨y, ys⟩, h⟩
    · obtain ⟨rfl, rfl⟩ := List.cons.inj h
      exact ⟨[], rfl, rfl⟩
    · obtain ⟨rfl, rfl⟩ := List.cons.inj h
      exact ⟨_, rfl, allYield_name.mpr ⟨y, _, rfl, allYield_singleton.mpr ⟨ys, rfl⟩⟩⟩
  · rintro ⟨goals, h, hw⟩
    simp only [Goal.next] at h
    split at h
    next hx =>
      cases h
      obtain ⟨y, _, rfl, hv⟩ := allYield_name.mp hw
      obtain ⟨ys, rfl⟩ := allYield_singleton.mp hv
      exact ⟨y :: ys, by simp [hx]⟩
    next =>
      have hsemicolon : x :: w = [.symbol .semicolon] :=
        (Stop.yields_cons (s := .semicolon)).mpr ⟨goals, h, hw⟩
      exact ⟨[], hsemicolon⟩

theorem allYield_parameter : AllYield (.type :: .name :: goals) w ↔
    ∃ (p : Parameter) (u : List Lexeme), w = p.lexemes ++ u ∧ AllYield goals u := by
  constructor
  · rintro ⟨_, _, rfl, ⟨ty, rfl⟩, hname⟩
    obtain ⟨name, u, rfl, hu⟩ := allYield_name.mp hname
    exact ⟨⟨ty, name⟩, u, rfl, hu⟩
  · rintro ⟨p, u, rfl, hu⟩
    exact ⟨[p.type.lexeme], _, rfl, ⟨p.type, rfl⟩, allYield_name.mpr ⟨p.name, u, rfl, hu⟩⟩

theorem allYield_group : AllYield (.type :: .name :: .moreNames :: goals) w ↔
    ∃ (g : NameGroup) (u : List Lexeme), w = g.lexemes ++ u ∧ AllYield goals u := by
  constructor
  · rintro h
    obtain ⟨p, _, rfl, _, u, rfl, ⟨xs, rfl⟩, hu⟩ := allYield_parameter.mp h
    exact ⟨⟨p.type, p.name, xs⟩, u, by simp [NameGroup.lexemes, Parameter.lexemes, nameLexemes_eq],
      hu⟩
  · rintro ⟨⟨ty, first, xs⟩, u, rfl, hu⟩
    have hmore : Goal.moreNames.Yields
        (xs.flatMap (fun x => [Lexeme.symbol .comma, .identifier x]) ++
          [Lexeme.symbol .semicolon]) := ⟨xs, rfl⟩
    refine allYield_parameter.mpr ⟨⟨ty, first⟩, _, ?_, .cons hmore hu⟩
    simp [NameGroup.lexemes, Parameter.lexemes, nameLexemes_eq]

theorem yields_moreParameters_cons : Goal.moreParameters.Yields (x :: w) ↔
    ∃ goals, Goal.moreParameters.next x = some goals ∧ AllYield goals w := by
  constructor
  · rintro ⟨_ | ⟨p, ps⟩, h⟩
    · obtain ⟨rfl, rfl⟩ := List.cons.inj h
      exact ⟨[], rfl, rfl⟩
    · rw [List.flatMap_cons, List.append_assoc] at h
      obtain ⟨rfl, rfl⟩ := List.cons.inj h
      have hmore : AllYield [.moreParameters] (ps.flatMap (fun p => .symbol .comma :: p.lexemes) ++
          [Lexeme.symbol .closeParen]) := allYield_singleton.mpr ⟨ps, rfl⟩
      exact ⟨_, rfl, allYield_parameter.mpr ⟨p, _, rfl, hmore⟩⟩
  · rintro ⟨goals, h, hw⟩
    simp only [Goal.next] at h
    split at h
    next hx =>
      cases h
      obtain ⟨p, _, rfl, hv⟩ := allYield_parameter.mp hw
      obtain ⟨ps, rfl⟩ := allYield_singleton.mp hv
      exact ⟨p :: ps, by simp [hx]⟩
    next =>
      have hclose : x :: w = [.symbol .closeParen] :=
        (Stop.yields_cons (s := .closeParen)).mpr ⟨goals, h, hw⟩
      exact ⟨[], hclose⟩

theorem yields_parameters_cons : Goal.parameters.Yields (x :: w) ↔
    ∃ goals, Goal.parameters.next x = some goals ∧ AllYield goals w := by
  constructor
  · rintro ⟨_ | ⟨p, ps⟩, h⟩
    · obtain ⟨rfl, rfl⟩ := List.cons.inj h
      exact ⟨[], rfl, rfl⟩
    · rw [parameterLexemes_cons] at h
      obtain ⟨rfl, rfl⟩ := List.cons.inj h
      have hmore : AllYield [.moreParameters] (ps.flatMap (fun p => .symbol .comma :: p.lexemes) ++
          [Lexeme.symbol .closeParen]) := allYield_singleton.mpr ⟨ps, rfl⟩
      have hx : p.type.lexeme ≠ .symbol .closeParen := by cases p.type <;> simp [TypeName.lexeme]
      refine ⟨[.name, .moreParameters], ?_, allYield_name.mpr ⟨p.name, _, ?_, hmore⟩⟩
      · simp [Goal.next, hx, nextOfType_lexeme]
      · simp
  · rintro ⟨goals, h, hw⟩
    simp only [Goal.next] at h
    split at h
    next hx =>
      cases h
      exact ⟨[], by rw [hx, allYield_nil.mp hw]; rfl⟩
    next =>
      obtain ⟨_, htype, rfl⟩ := Option.map_eq_some_iff.mp h
      obtain ⟨rfl, ty, rfl⟩ := nextOfType_eq_some.mp htype
      obtain ⟨name, _, rfl, hv⟩ := allYield_name.mp hw
      obtain ⟨ps, rfl⟩ := allYield_singleton.mp hv
      exact ⟨⟨ty, name⟩ :: ps, by simp [parameterLexemes_cons, Parameter.lexemes]⟩

theorem yields_locals_cons : (Goal.locals v).Yields (x :: w) ↔
    ∃ goals, (Goal.locals v).next x = some goals ∧ AllYield goals w := by
  constructor
  · rintro ⟨_ | ⟨g, gs⟩, ss, hss, h⟩
    · obtain ⟨goals, hnext, hw⟩ := yields_statements_cons.mp ⟨ss, hss, h⟩
      have hx : x ≠ .keyword .kwVar := by
        rintro rfl
        cases hnext
      exact ⟨goals, by simpa [Goal.next, hx] using hnext, hw⟩
    · rw [List.flatMap_cons, List.append_assoc] at h
      obtain ⟨rfl, rfl⟩ := List.cons.inj h
      have hmore : AllYield [.locals v] (gs.flatMap (fun g => .keyword .kwVar :: g.lexemes) ++
          (statementLexemes ss ++ [Lexeme.symbol .closeBrace])) :=
        allYield_singleton.mpr ⟨gs, ss, hss, rfl⟩
      exact ⟨_, rfl, allYield_group.mpr ⟨g, _, rfl, hmore⟩⟩
  · rintro ⟨goals, h, hw⟩
    simp only [Goal.next] at h
    split at h
    next hx =>
      cases h
      obtain ⟨g, _, rfl, hv⟩ := allYield_group.mp hw
      obtain ⟨gs, ss, hss, rfl⟩ := allYield_singleton.mp hv
      exact ⟨g :: gs, ss, hss, by simp [hx]⟩
    next =>
      obtain ⟨ss, hss, h⟩ := yields_statements_cons.mpr ⟨goals, h, hw⟩
      exact ⟨[], ss, hss, h⟩

theorem allYield_head : AllYield (headGoals v) w ↔ ∃ (name : String) (ps : List Parameter)
    (ls : List NameGroup) (ss : List Statement), StatementsReturn v ss ∧
      w = .identifier name :: .symbol .openParen :: (parameterLexemes ps ++ .symbol .closeParen ::
        braced (ls.flatMap (fun g => .keyword .kwVar :: g.lexemes) ++ statementLexemes ss)) := by
  constructor
  · intro h
    obtain ⟨name, _, rfl, hopen⟩ := allYield_name.mp h
    obtain ⟨_, rfl, _, _, rfl, ⟨ps, rfl⟩, hbrace⟩ := allYield_one.mp hopen
    obtain ⟨_, rfl, hlocals⟩ := allYield_one.mp hbrace
    obtain ⟨ls, ss, hss, rfl⟩ := allYield_singleton.mp hlocals
    exact ⟨name, ps, ls, ss, hss, by simp [braced]⟩
  · rintro ⟨name, ps, ls, ss, hss, rfl⟩
    have hbody : AllYield [.locals v] (ls.flatMap (fun g => .keyword .kwVar :: g.lexemes) ++
        (statementLexemes ss ++ [Lexeme.symbol .closeBrace])) :=
      allYield_singleton.mpr ⟨ls, ss, hss, rfl⟩
    have hparameters :
        Goal.parameters.Yields (parameterLexemes ps ++ [Lexeme.symbol .closeParen]) := ⟨ps, rfl⟩
    refine allYield_name.mpr ⟨name, _, rfl, allYield_one.mpr ⟨_, rfl, ?_⟩⟩
    simpa [braced] using AllYield.cons hparameters (allYield_one.mpr ⟨_, rfl, hbody⟩)

theorem yields_routine_cons : Goal.routine.Yields (x :: w) ↔
    ∃ goals, Goal.routine.next x = some goals ∧ AllYield goals w := by
  constructor
  · rintro ⟨⟨kind, returned, name, ps, ls, body⟩, hr, h⟩
    obtain ⟨rfl, rfl⟩ := List.cons.inj (List.cons.inj h).2
    have hhead := allYield_head.mpr ⟨name, ps, ls, body, hr, rfl⟩
    cases returned with
    | none => exact ⟨_, rfl, hhead⟩
    | some ty =>
      have hx : ty.lexeme ≠ .keyword .kwVoid := by cases ty <;> simp [TypeName.lexeme]
      exact ⟨headGoals false, by simp [Goal.next, returnedLexeme, hx, nextOfType_lexeme], hhead⟩
  · rintro ⟨goals, h, hw⟩
    simp only [Goal.next] at h
    split at h
    next hx =>
      cases h
      obtain ⟨name, ps, ls, ss, hss, rfl⟩ := allYield_head.mp hw
      exact ⟨⟨.function, none, name, ps, ls, ss⟩, hss, by rw [hx]; rfl⟩
    next =>
      obtain ⟨_, htype, rfl⟩ := Option.map_eq_some_iff.mp h
      obtain ⟨rfl, ty, rfl⟩ := nextOfType_eq_some.mp htype
      obtain ⟨name, ps, ls, ss, hss, rfl⟩ := allYield_head.mp hw
      exact ⟨⟨.function, some ty, name, ps, ls, ss⟩, hss, rfl⟩

theorem RoutineTree.yields_routine {r : RoutineTree} (hr : r.Grammatical) :
    ∃ u, r.lexemes = r.kind.lexeme :: u ∧ Goal.routine.Yields u :=
  ⟨_, rfl, r, hr, rfl⟩

/-- Any kind does for the subroutine of which the rest is known. -/
theorem exists_routine_of_yields {u : List Lexeme} (h : Goal.routine.Yields u) (kind : RoutineKind) :
    ∃ r : RoutineTree, r.Grammatical ∧ r.lexemes = kind.lexeme :: u := by
  obtain ⟨r, hr, hu⟩ := h
  exact ⟨{ r with kind := kind }, hr, congrArg _ (List.cons.inj hu).2⟩

theorem yields_routines_cons : Goal.routines.Yields (x :: w) ↔
    ∃ goals, nextOfRoutines x = some goals ∧ AllYield goals w := by
  constructor
  · rintro ⟨_ | ⟨r, rs⟩, hrs, h⟩
    · obtain ⟨rfl, rfl⟩ := List.cons.inj h
      exact ⟨[], rfl, rfl⟩
    · obtain ⟨hr, hrs⟩ := List.forall_mem_cons.mp hrs
      obtain ⟨u, hu, hroutine⟩ := r.yields_routine hr
      rw [List.flatMap_cons, List.append_assoc, hu] at h
      obtain ⟨rfl, rfl⟩ := List.cons.inj h
      have hmore : AllYield [.routines]
          (rs.flatMap RoutineTree.lexemes ++ [Lexeme.symbol .closeBrace]) :=
        allYield_singleton.mpr ⟨rs, hrs, rfl⟩
      exact ⟨[.routine, .routines], by cases r.kind <;> rfl, .cons hroutine hmore⟩
  · rintro ⟨goals, h, hw⟩
    have hmore (kind : RoutineKind) (hx : x = kind.lexeme)
        (hw : AllYield [.routine, .routines] w) : Goal.routines.Yields (x :: w) := by
      obtain ⟨u, _, rfl, hu, hv⟩ := hw
      obtain ⟨rs, hrs, rfl⟩ := allYield_singleton.mp hv
      obtain ⟨r, hr, hlex⟩ := exists_routine_of_yields hu kind
      exact ⟨r :: rs, List.forall_mem_cons.mpr ⟨hr, hrs⟩, by simp [hlex, hx]⟩
    unfold nextOfRoutines at h
    split at h <;> cases h
    next => exact hmore .constructor rfl hw
    next => exact hmore .function rfl hw
    next => exact hmore .method rfl hw
    next => exact ⟨[], by simp, by rw [allYield_nil.mp hw]; rfl⟩

theorem exists_isField (h : (classVariableKind? x).isSome) :
    ∃ isField : Bool, x = .keyword (if isField then .kwField else .kwStatic) := by
  unfold classVariableKind? at h
  split at h
  · exact ⟨false, rfl⟩
  · exact ⟨true, rfl⟩
  · cases h

theorem yields_members_cons : Goal.members.Yields (x :: w) ↔
    ∃ goals, Goal.members.next x = some goals ∧ AllYield goals w := by
  constructor
  · rintro ⟨_ | ⟨g, gs⟩, rs, hrs, h⟩
    · obtain ⟨goals, hnext, hw⟩ := yields_routines_cons.mp ⟨rs, hrs, h⟩
      have hx : classVariableKind? x = none := by
        unfold classVariableKind?
        split
        · cases hnext
        · cases hnext
        · rfl
      exact ⟨goals, by simpa [Goal.next, hx] using hnext, hw⟩
    · rw [List.flatMap_cons, List.append_assoc] at h
      obtain ⟨rfl, rfl⟩ := List.cons.inj h
      have hmore : AllYield [.members] (gs.flatMap ClassVariables.lexemes ++
          (rs.flatMap RoutineTree.lexemes ++ [Lexeme.symbol .closeBrace])) :=
        allYield_singleton.mpr ⟨gs, rs, hrs, rfl⟩
      have hx : (classVariableKind? (.keyword (if g.isField then .kwField else .kwStatic))).isSome := by
        cases g.isField <;> rfl
      exact ⟨[.type, .name, .moreNames, .members], by simp [Goal.next, hx],
        allYield_group.mpr ⟨g.group, _, rfl, hmore⟩⟩
  · rintro ⟨goals, h, hw⟩
    simp only [Goal.next] at h
    split at h
    next hx =>
      cases h
      obtain ⟨isField, rfl⟩ := exists_isField hx
      obtain ⟨g, _, rfl, hv⟩ := allYield_group.mp hw
      obtain ⟨gs, rs, hrs, rfl⟩ := allYield_singleton.mp hv
      exact ⟨⟨isField, g⟩ :: gs, rs, hrs, by simp [ClassVariables.lexemes]⟩
    next =>
      obtain ⟨rs, hrs, h⟩ := yields_routines_cons.mpr ⟨goals, h, hw⟩
      exact ⟨[], rs, hrs, h⟩

end Members

/-- What a goal stands for is told by its tokens one at a time. -/
theorem Goal.yields_cons {g : Goal} {x : Lexeme} {w : List Lexeme} : g.Yields (x :: w) ↔
    ∃ goals, g.next x = some goals ∧ AllYield goals w := by
  cases g with
  | one y =>
    constructor
    · intro h
      obtain ⟨rfl, rfl⟩ := List.cons.inj h
      exact ⟨[], by simp [Goal.next], rfl⟩
    · rintro ⟨goals, h, hw⟩
      simp only [Goal.next] at h
      split at h <;> cases h
      next hx => rw [hx, allYield_nil.mp hw]; rfl
  | name => exact yields_name_cons
  | type => exact yields_type_cons
  | stop s => exact Stop.yields_cons
  | term s => exact yields_term_cons
  | afterName s => exact yields_afterName_cons
  | operators s => exact yields_operators_cons
  | arguments => exact yields_arguments_cons
  | afterCallee => exact isCallTail_cons
  | afterTarget => exact yields_afterTarget_cons
  | value v => exact yields_value_cons
  | statements v => exact yields_statements_cons
  | otherwise v => exact yields_otherwise_cons
  | moreNames => exact yields_moreNames_cons
  | parameters => exact yields_parameters_cons
  | moreParameters => exact yields_moreParameters_cons
  | locals v => exact yields_locals_cons
  | routine => exact yields_routine_cons
  | routines => exact yields_routines_cons
  | members => exact yields_members_cons

end JackVM
