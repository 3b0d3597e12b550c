import JackVM.Proofs.TakingBack
import JackVM.Proofs.TwoRuns

namespace JackVM

/-- What there is to see of compiling at its source: the answer to a call, or that a term starts
with a token. -/
inductive SourceEvent where
  | answer (a : StreamAnswer)
  | term (first : Token)

def SourceEvent.answer? : SourceEvent → Option StreamAnswer
  | answer a => some a
  | term _ => none

/-- A stream of tokens with a log of what was seen at it, earliest first. -/
structure TokenLog where
  stream : TokenStream
  log : List SourceEvent

/-- Every call is answered by the stream, and its answer is kept. -/
instance : TokenSource TokenLog where
  next s :=
    match s.stream.next with
    | .ok t? after => .ok t? ⟨after, s.log ++ [.answer (.read (.ok t?))]⟩
    | .error e after => .error e ⟨after, s.log ++ [.answer (.read (.error e))]⟩
  unread s :=
    match s.stream.unread with
    | .ok _ after => .ok () ⟨after, s.log ++ [.answer (.unread (.ok ()))]⟩
    | .error e after => .error e ⟨after, s.log ++ [.answer (.unread (.error e))]⟩
  beginTerm t s := ⟨s.stream, s.log ++ [.term t]⟩
  depthBound s := TokenSource.depthBound s.stream

/-- Parts of compiling whose source keeps a log. -/
abbrev CompilingLogged (σ : Type) := CompilingFrom TokenLog σ

/-- Reading on from a place, with nothing taken back, gives these results and leads to another
place. -/
inductive Cursor.Gives : Cursor → List (Except TokenError (Option Token)) → Cursor → Prop
  | nothing (c : Cursor) : Gives c [] c
  | ok {c mid after : Cursor} {t? : Option Token} {rs : List (Except TokenError (Option Token))} :
    c.read = .ok t? mid → Gives mid rs after → Gives c (.ok t? :: rs) after
  | error {c mid after : Cursor} {e : TokenError} {rs : List (Except TokenError (Option Token))} :
    c.read = .error e mid → Gives mid rs after → Gives c (.error e :: rs) after

namespace Cursor.Gives

variable {c mid after : Cursor} {before rs : List (Except TokenError (Option Token))}

theorem trans (h : c.Gives before mid) (h' : mid.Gives rs after) :
    c.Gives (before ++ rs) after := by
  induction h with
  | nothing => exact h'
  | ok hread _ ih => exact .ok hread (ih h')
  | error hread _ ih => exact .error hread (ih h')

/-- What was read and what is still to come are the results there were to come. Past the end there
may be further ones. -/
theorem results (h : c.Gives rs after) : ∃ ends, rs ++ after.results.map (Except.map some) =
    c.results.map (Except.map some) ++ List.replicate ends (.ok none) := by
  induction h with
  | nothing c => exact ⟨0, (List.append_nil _).symm⟩
  | @ok c mid _ t? _ hread _ ih =>
    obtain ⟨ends, hrest⟩ := ih
    cases t? with
    | some t =>
      rw [List.cons_append, hrest, Cursor.results_of_token hread]
      exact ⟨ends, rfl⟩
    | none =>
      rw [List.cons_append, hrest, Cursor.results_of_end hread, Cursor.results_after_end hread]
      exact ⟨ends + 1, rfl⟩
  | error hread _ ih =>
    obtain ⟨ends, hrest⟩ := ih
    rw [List.cons_append, hrest, Cursor.results_of_error hread]
    exact ⟨ends, rfl⟩

end Cursor.Gives

/-- Where reading pauses. A token may have been read just before, or have been taken back. -/
inductive Pause where
  | clear
  | after (t : Token)
  | before (t : Token)

namespace Pause

/-- The stream is at such a pause. -/
def At : Pause → TokenStream → Prop
  | clear, s => s.unreadToken = none
  | after t, s => s.CanUnread t
  | before t, s => s.unreadToken = some t

/-- No token is taken back. -/
def IsClear : Pause → Prop
  | before _ => False
  | _ => True

/-- The pause after a result of reading. -/
def behind : Except TokenError (Option Token) → Pause
  | .ok (some t) => after t
  | _ => clear

variable {p : Pause} {s : TokenStream}

theorem isClear_behind (r : Except TokenError (Option Token)) : (behind r).IsClear := by
  unfold behind
  split <;> trivial

theorem unreadToken_of_at (hp : p.IsClear) (h : p.At s) : s.unreadToken = none :=
  match p, hp, h with
  | clear, _, h => h
  | after _, _, h => h.2

theorem at_behind {t? : Option Token} {mid : TokenStream} (h : s.next = .ok t? mid) :
    (behind (.ok t?)).At mid := by
  cases t? with
  | none =>
    obtain ⟨u, -, hu, -⟩ | ⟨-, c, -, rfl⟩ := TokenStream.next_ok_cases h
    · cases hu
    · rfl
  | some t => exact (TokenStream.upcoming_of_next h).2

end Pause

/-- Whether a result is a token that makes a name before it the start of a call. -/
def opensCall : Except TokenError (Option Token) → Bool
  | .ok (some u) => u.lexeme.opensCall
  | _ => false

/-- In what is seen at the source from one pause to another, each of these results is delivered once
and in order. Only what opens a call after a name at the start of a term is taken back and delivered
again. -/
inductive DeliversOnce :
    Pause → List (Except TokenError (Option Token)) → List SourceEvent → Pause → Prop
  | nothing (p : Pause) : DeliversOnce p [] [] p
  | read {p q : Pause} {r : Except TokenError (Option Token)}
      {rs : List (Except TokenError (Option Token))} {log : List SourceEvent} : p.IsClear →
    DeliversOnce (.behind r) rs log q → DeliversOnce p (r :: rs) (.answer (.read r) :: log) q
  | again {u : Token} {q : Pause} {rs : List (Except TokenError (Option Token))}
      {log : List SourceEvent} : DeliversOnce (.after u) rs log q →
    DeliversOnce (.before u) rs (.answer (.read (.ok (some u))) :: log) q
  | term {t : Token} {q : Pause} {rs : List (Except TokenError (Option Token))}
      {log : List SourceEvent} : t.lexeme.name? = none → DeliversOnce (.after t) rs log q →
    DeliversOnce (.after t) rs (.term t :: log) q
  | name {t : Token} {q : Pause} {r : Except TokenError (Option Token)}
      {rs : List (Except TokenError (Option Token))} {log : List SourceEvent} :
    t.lexeme.name?.isSome = true → opensCall r = false → DeliversOnce (.behind r) rs log q →
    DeliversOnce (.after t) (r :: rs) (.term t :: .answer (.read r) :: log) q
  | call {t u : Token} {q : Pause} {rs : List (Except TokenError (Option Token))}
      {log : List SourceEvent} : t.lexeme.name?.isSome = true → u.lexeme.opensCall = true →
    DeliversOnce (.before u) rs log q →
    DeliversOnce (.after t) (.ok (some u) :: rs)
      (.term t :: .answer (.read (.ok (some u))) :: .answer (.unread (.ok ())) :: log) q

namespace DeliversOnce

open StreamAnswer

variable {p q q' : Pause} {rs rs' : List (Except TokenError (Option Token))}
  {log log' : List SourceEvent}

theorem trans (h : DeliversOnce p rs log q) (h' : DeliversOnce q rs' log' q') :
    DeliversOnce p (rs ++ rs') (log ++ log') q' := by
  induction h with
  | nothing => exact h'
  | read hp _ ih => exact .read hp (ih h')
  | again _ ih => exact .again (ih h')
  | term ht _ ih => exact .term ht (ih h')
  | name ht hr _ ih => exact .name ht hr (ih h')
  | call ht hu _ ih => exact .call ht hu (ih h')

/-- After some answers, the results that are delivered for the first time are just these. -/
theorem fresh_append (h : DeliversOnce p rs log q) {before : List StreamAnswer}
    (hp : awaitsAgain before = true ↔ ¬p.IsClear) :
    fresh ((log.filterMap SourceEvent.answer?).reverse ++ before) = rs.reverse ++ fresh before := by
  have hread (r : Except TokenError (Option Token)) (before : List StreamAnswer) :
      awaitsAgain (.read r :: before) = true ↔ ¬(Pause.behind r).IsClear := by
    simp [awaitsAgain, Pause.isClear_behind]
  induction h generalizing before with
  | nothing => rfl
  | @read p q r rs log hclear _ ih =>
    have hawaits : awaitsAgain before = false := by simpa [hclear] using hp
    simpa [SourceEvent.answer?, fresh, hawaits] using ih (hread r before)
  | @again u q rs log _ ih =>
    have hawaits : awaitsAgain before = true := hp.mpr id
    simpa [SourceEvent.answer?, fresh, hawaits] using ih (hread (.ok (some u)) before)
  | term _ _ ih => simpa [SourceEvent.answer?, List.filterMap_cons] using ih hp
  | @name t q r rs log _ _ _ ih =>
    have hawaits : awaitsAgain before = false := by simpa [Pause.IsClear] using hp
    simpa [SourceEvent.answer?, List.filterMap_cons, fresh, hawaits] using ih (hread r before)
  | @call t u q rs log _ _ _ ih =>
    have hawaits : awaitsAgain before = false := by simpa [Pause.IsClear] using hp
    have hback : awaitsAgain (.unread (.ok ()) :: .read (.ok (some u)) :: before) = true ↔
        ¬(Pause.before u).IsClear := by
      simp [awaitsAgain, Pause.IsClear]
    simpa [SourceEvent.answer?, List.filterMap_cons, fresh, hawaits] using ih hback

theorem fresh_eq (h : DeliversOnce p rs log q) (hp : p.IsClear) :
    (fresh (log.filterMap SourceEvent.answer?).reverse).reverse = rs := by
  have hstart : awaitsAgain [] = true ↔ ¬p.IsClear := by simp [awaitsAgain, hp]
  simpa [fresh] using congrArg List.reverse (h.fresh_append hstart)

end DeliversOnce

/-- What was seen at the source from one place to another delivers each result once, and its results
are those between the two places. -/
def TokenLog.Delivers (s : TokenLog) (p : Pause) (s' : TokenLog) (q : Pause) : Prop :=
  ∃ rs log, s'.log = s.log ++ log ∧ DeliversOnce p rs log q ∧
    s.stream.cursor.Gives rs s'.stream.cursor ∧ q.At s'.stream

namespace TokenLog

variable {s mid s' : TokenLog} {p q q' : Pause} {t u : Token} {τ : TokenStream}

theorem Delivers.refl (hs : p.At s.stream) : s.Delivers p s p :=
  ⟨[], [], (List.append_nil _).symm, .nothing p, .nothing _, hs⟩

theorem Delivers.trans (h : s.Delivers p mid q) (h' : mid.Delivers q s' q') :
    s.Delivers p s' q' := by
  obtain ⟨rs, log, hlog, hdelivers, hgives, -⟩ := h
  obtain ⟨rs', log', hlog', hdelivers', hgives', hq'⟩ := h'
  refine ⟨rs ++ rs', log ++ log', ?_, hdelivers.trans hdelivers', hgives.trans hgives', hq'⟩
  rw [hlog', hlog, List.append_assoc]

theorem Delivers.at_end (h : s.Delivers p s' q) : q.At s'.stream := by
  obtain ⟨-, -, -, -, -, hq⟩ := h
  exact hq

/-- A token that was taken back is delivered again, and any other result for the first time. -/
theorem delivers_next {t? : Option Token} (hs : p.At s.stream) (h : s.stream.next = .ok t? τ) :
    s.Delivers p ⟨τ, s.log ++ [.answer (.read (.ok t?))]⟩ (.behind (.ok t?)) := by
  have hat := Pause.at_behind h
  have hfirst (hclear : p.IsClear) :
      s.Delivers p ⟨τ, s.log ++ [.answer (.read (.ok t?))]⟩ (.behind (.ok t?)) := by
    have hread := (TokenStream.read_of_next (Pause.unreadToken_of_at hclear hs) h).1
    exact ⟨_, _, rfl, .read hclear (.nothing _), .ok hread (.nothing _), hat⟩
  match p, hs with
  | .clear, _ => exact hfirst trivial
  | .after _, _ => exact hfirst trivial
  | .before u, hs =>
    rw [TokenStream.next_of_unreadToken hs] at h
    cases h
    exact ⟨[], _, rfl, .again (.nothing _), .nothing _, hat⟩

theorem delivers_next_error {e : TokenError} (hs : p.At s.stream)
    (h : s.stream.next = .error e τ) :
    s.Delivers p ⟨τ, s.log ++ [.answer (.read (.error e))]⟩ .clear := by
  obtain ⟨hunread, c, hread, rfl⟩ := TokenStream.next_error_cases h
  have hclear : p.IsClear := by
    match p, hs with
    | .clear, _ | .after _, _ => trivial
    | .before u, hs => exact absurd (hunread.symm.trans hs) nofun
  exact ⟨_, _, rfl, .read hclear (.nothing _), .error hread (.nothing _), rfl⟩

/-- A term that starts with another token than a name. -/
theorem delivers_term (hs : s.stream.CanUnread t) (ht : t.lexeme.name? = none) :
    s.Delivers (.after t) ⟨s.stream, s.log ++ [.term t]⟩ (.after t) :=
  ⟨[], _, rfl, .term ht (.nothing _), .nothing _, hs⟩

/-- A term that is a name, with what comes after it. -/
theorem delivers_name {t? : Option Token} (hs : s.stream.CanUnread t)
    (ht : t.lexeme.name?.isSome = true) (hu : opensCall (.ok t?) = false)
    (h : s.stream.next = .ok t? τ) :
    s.Delivers (.after t) ⟨τ, s.log ++ [.term t] ++ [.answer (.read (.ok t?))]⟩
      (.behind (.ok t?)) := by
  have hread := (TokenStream.read_of_next hs.2 h).1
  refine ⟨_, [.term t, .answer (.read (.ok t?))], ?_, .name ht hu (.nothing _),
    .ok hread (.nothing _), Pause.at_behind h⟩
  exact List.append_assoc _ _ _

theorem delivers_name_error {e : TokenError} (ht : t.lexeme.name?.isSome = true)
    (h : s.stream.next = .error e τ) :
    s.Delivers (.after t) ⟨τ, s.log ++ [.term t] ++ [.answer (.read (.error e))]⟩ .clear := by
  obtain ⟨-, c, hread, rfl⟩ := TokenStream.next_error_cases h
  refine ⟨_, [.term t, .answer (.read (.error e))], ?_, .name ht rfl (.nothing _),
    .error hread (.nothing _), rfl⟩
  exact List.append_assoc _ _ _

/-- A name with what opens a call, which is taken back. -/
theorem delivers_call (hs : s.stream.CanUnread t) (ht : t.lexeme.name?.isSome = true)
    (hu : u.lexeme.opensCall = true) (h : s.stream.next = .ok (some u) τ) :
    s.Delivers (.after t) ⟨⟨τ.cursor, none, some u⟩,
      s.log ++ [.term t] ++ [.answer (.read (.ok (some u)))] ++ [.answer (.unread (.ok ()))]⟩
      (.before u) := by
  have hread := (TokenStream.read_of_next hs.2 h).1
  refine ⟨_, [.term t, .answer (.read (.ok (some u))), .answer (.unread (.ok ()))], ?_,
    .call ht hu (.nothing _), .ok hread (.nothing _), rfl⟩
  simp only [List.append_assoc, List.cons_append, List.nil_append]

end TokenLog

end JackVM
