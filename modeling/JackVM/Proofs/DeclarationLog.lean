import JackVM.Proofs.DeclaredNames

namespace JackVM

/-- What can be done to declarations. -/
inductive DeclarationStep where
  | enterClass
  | enterSubroutine (isMethod : Bool)
  | declare (x : Declaration)
  deriving DecidableEq, Repr

/-- Whether a step forgets the names at the level of a kind of variables. -/
def DeclarationStep.clears (k : VariableKind) : DeclarationStep → Bool
  | enterClass => true
  | enterSubroutine _ => !k.isClassLevel
  | declare _ => false

/-- A step that was asked for, and the error if it was refused. -/
structure DeclarationRecord where
  step : DeclarationStep
  error? : Option AlreadyDeclared
  deriving DecidableEq, Repr

/-- The error of a step, if any, and the declarations afterwards. An error leaves them as they
were. -/
def Declarations.perform (d : Declarations) :
    DeclarationStep → Option AlreadyDeclared × Declarations
  | .enterClass => (none, d.enterClass)
  | .enterSubroutine isMethod => (none, d.enterSubroutine isMethod)
  | .declare x =>
    match d.declare x.name x.typeName x.kind with
    | .ok after => (none, after)
    | .error e => (some e, d)

/-- Takes steps one after the other and keeps them in a log, latest first. -/
def Declarations.performAll (start : List DeclarationRecord × Declarations)
    (steps : List DeclarationStep) : List DeclarationRecord × Declarations :=
  steps.foldl (fun (log, d) s => (⟨s, (d.perform s).1⟩ :: log, (d.perform s).2)) start

/-- The log of steps from no declarations on, and the declarations afterwards. -/
def declareAll (steps : List DeclarationStep) : List DeclarationRecord × Declarations :=
  Declarations.performAll ([], .empty) steps

/-- Whether a variable of a kind was declared, and not refused. -/
def DeclarationRecord.declares (k : VariableKind) : DeclarationRecord → Bool
  | ⟨.declare x, none⟩ => x.kind = k
  | _ => false

/-- The step that cleared the level of a kind last. -/
def lastClear? (k : VariableKind) (log : List DeclarationRecord) : Option DeclarationStep :=
  (log.find? fun r => r.step.clears k).map DeclarationRecord.step

/-- How many variables of a kind were declared since their level was cleared. A method's receiver
counts as an argument. -/
def ordinal (k : VariableKind) (log : List DeclarationRecord) : Nat :=
  (log.takeWhile fun r => !r.step.clears k).countP (·.declares k) +
    if k = .argument ∧ lastClear? k log = some (.enterSubroutine true) then 1 else 0

/-- A variable was declared and its level was not cleared since. Its index is the ordinal that it
got then. -/
def Live (log : List DeclarationRecord) (v : Variable) : Prop :=
  ∃ later earlier, log = later ++ ⟨.declare v.declaration, none⟩ :: earlier ∧
    (∀ r ∈ later, r.step.clears v.kind = false) ∧ v.index = ordinal v.kind earlier

section Logs

variable {k : VariableKind} {r : DeclarationRecord} {log : List DeclarationRecord} {v : Variable}

theorem ordinal_cons_of_clears (h : r.step.clears k = true) :
    ordinal k (r :: log) = if k = .argument ∧ r.step = .enterSubroutine true then 1 else 0 := by
  simp [ordinal, lastClear?, h]

theorem ordinal_cons (h : r.step.clears k = false) :
    ordinal k (r :: log) = ordinal k log + if r.declares k then 1 else 0 := by
  have hlast : lastClear? k (r :: log) = lastClear? k log := by simp [lastClear?, h]
  rw [ordinal, hlast, List.takeWhile_cons_of_pos (by simp [h]), List.countP_cons,
    Nat.add_right_comm, ← ordinal]

theorem live_cons : Live (r :: log) v ↔
    r = ⟨.declare v.declaration, none⟩ ∧ v.index = ordinal v.kind log ∨
      r.step.clears v.kind = false ∧ Live log v := by
  constructor
  · rintro ⟨later, earlier, hlog, hlater, hindex⟩
    cases later with
    | nil =>
      obtain ⟨rfl, rfl⟩ := List.cons.inj hlog
      exact .inl ⟨rfl, hindex⟩
    | cons s later =>
      obtain ⟨rfl, rfl⟩ := List.cons.inj hlog
      obtain ⟨hs, hlater⟩ := List.forall_mem_cons.mp hlater
      exact .inr ⟨hs, later, earlier, rfl, hlater, hindex⟩
  · rintro (⟨rfl, hindex⟩ | ⟨hr, later, earlier, rfl, hlater, hindex⟩)
    · exact ⟨[], log, rfl, nofun, hindex⟩
    · exact ⟨r :: later, earlier, rfl, List.forall_mem_cons.mpr ⟨hr, hlater⟩, hindex⟩

theorem not_live_nil : ¬Live [] v := by
  rintro ⟨later, earlier, hlog, -⟩
  simp at hlog

end Logs

/-- A variable that is live has the name that is to be declared, at the same level. -/
def Clashes (log : List DeclarationRecord) (x : Declaration) (v : Variable) : Prop :=
  Live log v ∧ v.name = x.name ∧ v.kind.isClassLevel = x.kind.isClassLevel

/-- What declarations keep, told by the log of the steps on them. A level has just the live
variables, each under its name, and the counters have the ordinals. -/
structure Declarations.Tells (log : List DeclarationRecord) (d : Declarations) : Prop where
  live : ∀ k name v, (d.level k).get? name = some v ↔
    Live log v ∧ v.name = name ∧ v.kind.isClassLevel = k.isClassLevel
  count : ∀ k, d.count k = ordinal k log

namespace Declarations

section Steps

variable {d : Declarations} {x : Declaration}

theorem declare_eq_error_iff {e : AlreadyDeclared} :
    d.declare x.name x.typeName x.kind = .error e ↔
      ∃ v, (d.level x.kind).get? x.name = some v ∧ e = ⟨x.name, v.kind⟩ := by
  unfold declare
  cases (d.level x.kind).get? x.name with
  | none => simp
  | some w => simp [eq_comm]

theorem declare_of_new (h : (d.level x.kind).get? x.name = none) :
    d.declare x.name x.typeName x.kind = .ok (d.add x) := by
  simp [declare, h, add]

theorem perform_of_ok {after : Declarations}
    (h : d.declare x.name x.typeName x.kind = .ok after) :
    d.perform (.declare x) = (none, after) := by
  simp [perform, h]

theorem perform_of_error {e : AlreadyDeclared}
    (h : d.declare x.name x.typeName x.kind = .error e) :
    d.perform (.declare x) = (some e, d) := by
  simp [perform, h]

end Steps

namespace Tells

variable {log : List DeclarationRecord} {d : Declarations}

theorem empty : Declarations.empty.Tells [] where
  live k name v := by
    have hlevel : Declarations.empty.level k = .empty := by cases k <;> rfl
    simp [hlevel, not_live_nil]
  count k := by
    cases k <;> rfl

theorem enterClass (d : Declarations) (log : List DeclarationRecord) :
    d.enterClass.Tells (⟨.enterClass, none⟩ :: log) where
  live k name v := by
    have hlevel : d.enterClass.level k = .empty := by cases k <;> rfl
    simp [hlevel, live_cons, DeclarationStep.clears]
  count k := by
    rw [ordinal_cons_of_clears rfl, if_neg (by simp)]
    exact Counters.get_zero k

theorem enterSubroutine (h : d.Tells log) (isMethod : Bool) :
    (d.enterSubroutine isMethod).Tells (⟨.enterSubroutine isMethod, none⟩ :: log) where
  live k name v := by
    rw [level_enterSubroutine, live_cons]
    cases hk : k.isClassLevel with
    | true =>
      rw [if_pos rfl, h.live k name v, hk]
      simp +contextual [DeclarationStep.clears]
    | false => simp +contextual [DeclarationStep.clears]
  count k := by
    rw [count_enterSubroutine]
    cases hk : k.isClassLevel with
    | true =>
      -- the class goes on counting
      rw [if_pos rfl, ordinal_cons (by simp [DeclarationStep.clears, hk]), h.count]
      rfl
    | false =>
      rw [if_neg Bool.false_ne_true, ordinal_cons_of_clears (by simp [DeclarationStep.clears, hk])]
      simp

theorem add (h : d.Tells log) {x : Declaration} (hx : (d.level x.kind).get? x.name = none) :
    (d.add x).Tells (⟨.declare x, none⟩ :: log) where
  live k name v := by
    have hnew : v = ⟨x.name, x.kind, x.typeName, d.count x.kind⟩ ↔
        (⟨.declare x, none⟩ : DeclarationRecord) = ⟨.declare v.declaration, none⟩ ∧
          v.index = ordinal v.kind log := by
      rw [← h.count]
      obtain ⟨name, kind, typeName, index⟩ := v
      constructor
      · intro hv
        cases hv
        exact ⟨rfl, rfl⟩
      · rintro ⟨hx, hindex⟩
        cases hx
        exact congrArg _ hindex
    have hfree : ∀ w, Live log w → w.name = x.name → w.kind.isClassLevel ≠ x.kind.isClassLevel := by
      intro w hw hname hlevel
      have hfound := (h.live x.kind x.name w).mpr ⟨hw, hname, hlevel⟩
      rw [hx] at hfound
      cases hfound
    rw [level_add, live_cons, ← hnew]
    by_cases hk : x.kind.isClassLevel = k.isClassLevel
    · rw [if_pos hk, NameMap.get?_insert]
      by_cases hname : x.name = name
      · subst hname
        rw [if_pos rfl, Option.some.injEq]
        constructor
        · rintro rfl
          exact ⟨.inl rfl, rfl, hk⟩
        · rintro ⟨rfl | ⟨-, hv⟩, hvname, hlevel⟩
          · rfl
          · exact absurd (hlevel.trans hk.symm) (hfree v hv hvname)
      · rw [if_neg hname, h.live k name v]
        constructor
        · rintro ⟨hv, hvname, hlevel⟩
          exact ⟨.inr ⟨rfl, hv⟩, hvname, hlevel⟩
        · rintro ⟨rfl | ⟨-, hv⟩, hvname, hlevel⟩
          · exact absurd hvname hname
          · exact ⟨hv, hvname, hlevel⟩
    · rw [if_neg hk, h.live k name v]
      constructor
      · rintro ⟨hv, hvname, hlevel⟩
        exact ⟨.inr ⟨rfl, hv⟩, hvname, hlevel⟩
      · rintro ⟨rfl | ⟨-, hv⟩, hvname, hlevel⟩
        · exact absurd hlevel hk
        · exact ⟨hv, hvname, hlevel⟩
  count k := by
    rw [count_add, ordinal_cons rfl, h.count k]
    by_cases hk : k = x.kind
    · simp [hk, DeclarationRecord.declares]
    · simp [hk, Ne.symm hk, DeclarationRecord.declares]

theorem refused (h : d.Tells log) (x : Declaration) (e : AlreadyDeclared) :
    d.Tells (⟨.declare x, some e⟩ :: log) where
  live k name v := by
    rw [h.live k name v, live_cons]
    simp [DeclarationStep.clears]
  count k := by
    rw [h.count k, ordinal_cons rfl]
    rfl

theorem find?_eq_some_iff {name : String} {v : Variable} (h : d.Tells log) :
    d.find? name = some v ↔ Live log v ∧ v.name = name ∧ (v.kind.isClassLevel = true →
      ∀ w, Live log w → w.name = name → w.kind.isClassLevel = true) := by
  have hsub (w : Variable) : d.ofSubroutine.get? name = some w ↔ _ := h.live .localVar name w
  have hclass (w : Variable) : d.ofClass.get? name = some w ↔ _ := h.live .field name w
  unfold find?
  rw [Option.or_eq_some_iff, hsub, hclass, Option.eq_none_iff_forall_ne_some]
  constructor
  · rintro (⟨hv, hname, hlevel⟩ | ⟨hnone, hv, hname, -⟩)
    · exact ⟨hv, hname, fun hclass => nomatch hlevel.symm.trans hclass⟩
    · refine ⟨hv, hname, fun _ w hw hwname => ?_⟩
      cases hwlevel : w.kind.isClassLevel with
      | true => rfl
      | false => exact absurd ((hsub w).mpr ⟨hw, hwname, hwlevel⟩) (hnone w)
  · rintro ⟨hv, hname, hothers⟩
    cases hlevel : v.kind.isClassLevel with
    | false => exact .inl ⟨hv, hname, rfl⟩
    | true =>
      refine .inr ⟨fun w hw => ?_, hv, hname, rfl⟩
      obtain ⟨hw, hwname, hwlevel⟩ := (hsub w).mp hw
      exact nomatch hwlevel.symm.trans (hothers hlevel w hw hwname)

end Tells

section Runs

variable {d : Declarations} {x : Declaration} {e : AlreadyDeclared}

/-- What is done later goes on top of the log, whatever the log is. -/
theorem performAll_append_log (log : List DeclarationRecord) (d : Declarations)
    (steps : List DeclarationStep) :
    performAll (log, d) steps =
      ((performAll ([], d) steps).1 ++ log, (performAll ([], d) steps).2) := by
  induction steps generalizing log d with
  | nil => rfl
  | cons step steps ih =>
    have hcons (log : List DeclarationRecord) : performAll (log, d) (step :: steps) =
        performAll (⟨step, (d.perform step).1⟩ :: log, (d.perform step).2) steps := rfl
    rw [hcons, hcons, ih, ih [_], List.append_assoc, List.singleton_append]

theorem performAll_refused (h : d.declare x.name x.typeName x.kind = .error e)
    (log : List DeclarationRecord) (more : List DeclarationStep) :
    performAll (log, d) (.declare x :: more) =
      performAll (⟨.declare x, some e⟩ :: log, d) more := by
  simp [performAll, perform_of_error h]

end Runs

end Declarations

/-- What each step keeps holds after any of them. -/
theorem declareAll_induction {P : List DeclarationRecord → Declarations → Prop}
    (empty : P [] .empty)
    (enterClass : ∀ log d, P log d → P (⟨.enterClass, none⟩ :: log) d.enterClass)
    (enterSubroutine : ∀ log d isMethod, P log d →
      P (⟨.enterSubroutine isMethod, none⟩ :: log) (d.enterSubroutine isMethod))
    (add : ∀ log d x, P log d → (d.level x.kind).get? x.name = none →
      P (⟨.declare x, none⟩ :: log) (d.add x))
    (refused : ∀ log d x e, P log d → P (⟨.declare x, some e⟩ :: log) d)
    (steps : List DeclarationStep) : P (declareAll steps).1 (declareAll steps).2 := by
  refine List.foldlRecOn (motive := fun p : List DeclarationRecord × Declarations => P p.1 p.2)
    steps _ empty ?_
  rintro ⟨log, d⟩ h step -
  cases step with
  | enterClass => exact enterClass log d h
  | enterSubroutine isMethod => exact enterSubroutine log d isMethod h
  | declare x =>
    cases hx : (d.level x.kind).get? x.name with
    | none =>
      dsimp only
      rw [Declarations.perform_of_ok (Declarations.declare_of_new hx)]
      exact add log d x h hx
    | some v =>
      dsimp only
      rw [Declarations.perform_of_error (Declarations.declare_eq_error_iff.mpr ⟨v, hx, rfl⟩)]
      exact refused log d x _ h

theorem declareAll_tells (steps : List DeclarationStep) :
    (declareAll steps).2.Tells (declareAll steps).1 :=
  declareAll_induction .empty (fun log d _ => .enterClass d log)
    (fun _ _ isMethod h => h.enterSubroutine isMethod) (fun _ _ _ h hx => h.add hx)
    (fun _ _ x e h => h.refused x e) steps

theorem declareAll_append (steps more : List DeclarationStep) :
    declareAll (steps ++ more) = Declarations.performAll (declareAll steps) more :=
  List.foldl_append

/-- Declarations answer as the log of what was done to them tells. A name is refused exactly if it
is live at its level, and what was refused has no effect later. Otherwise a variable gets the
ordinal of its kind. A name stands for the live variable of the subroutine, or else of the class. -/
theorem declarations_followLog (steps : List DeclarationStep) :
    let log := (declareAll steps).1
    let d := (declareAll steps).2
    (∀ x e, d.declare x.name x.typeName x.kind = .error e ↔
        ∃ v, Clashes log x v ∧ e = ⟨x.name, v.kind⟩) ∧
      (∀ x e, d.declare x.name x.typeName x.kind = .error e → ∀ more, ∃ later after,
        declareAll (steps ++ more) = (later ++ log, after) ∧
          declareAll (steps ++ .declare x :: more) =
            (later ++ ⟨.declare x, some e⟩ :: log, after)) ∧
      (∀ x, (∀ v, ¬Clashes log x v) → ∃ after, d.declare x.name x.typeName x.kind = .ok after ∧
        (after.level x.kind).get? x.name =
          some ⟨x.name, x.kind, x.typeName, ordinal x.kind log⟩) ∧
      (∀ name v, d.find? name = some v ↔ Live log v ∧ v.name = name ∧
        (v.kind.isClassLevel = true →
          ∀ w, Live log w → w.name = name → w.kind.isClassLevel = true)) ∧
      (∀ name, d.contains name = true ↔ ∃ v, d.find? name = some v) ∧
      ∀ k, d.count k = ordinal k log := by
  intro log d
  have h : d.Tells log := declareAll_tells steps
  refine ⟨fun x e => ?_, fun x e he more => ?_, fun x hx => ?_, fun _ _ => h.find?_eq_some_iff,
    fun name => Option.isSome_iff_exists, h.count⟩
  · rw [Declarations.declare_eq_error_iff]
    simp only [h.live, Clashes]
  · have hsteps : declareAll steps = (log, d) := rfl
    refine ⟨(Declarations.performAll ([], d) more).1,
      (Declarations.performAll ([], d) more).2, ?_, ?_⟩
    · rw [declareAll_append, hsteps, Declarations.performAll_append_log]
    · rw [declareAll_append, hsteps, Declarations.performAll_refused he,
        Declarations.performAll_append_log]
  · have hnew : (d.level x.kind).get? x.name = none := by
      rw [Option.eq_none_iff_forall_ne_some]
      exact fun v hv => hx v ((h.live _ _ _).mp hv)
    refine ⟨d.add x, Declarations.declare_of_new hnew, ?_⟩
    rw [Declarations.level_add, if_pos rfl, NameMap.get?_insert, if_pos rfl, h.count]

/-- A method's parameters come after its receiver, and their names are not free for its locals. -/
example : (declareAll [.enterSubroutine true, .declare ⟨.argument, "int", "x"⟩,
    .declare ⟨.localVar, "int", "x"⟩]).2.find? "x" = some ⟨"x", .argument, "int", 1⟩ := by decide

end JackVM
