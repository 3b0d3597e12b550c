import JackVM.TokenStream

namespace JackVM

theorem readToken_ne_end {c : Char} {cs : List Char} {line : Nat} {after : Cursor} :
    readToken c cs line ≠ .ok none after := by
  have hdeliver (found : Except TokenError Lexeme) (line : Nat) (c : Cursor) :
      deliver found line c ≠ .ok none after := by
    cases found <;> exact nofun
  unfold readToken
  split
  next => exact nofun
  next =>
    split
    next =>
      split
      next => exact hdeliver _ _ _
      next => exact nofun
    next => exact hdeliver _ _ _

/-- Nothing is left at the end of a source. -/
theorem Cursor.results_after_end {c after : Cursor} (h : c.read = .ok none after) :
    after.results = [] := by
  unfold Cursor.read at h
  split at h
  next => cases h
  next line _ =>
    cases h
    have hend : Cursor.read ⟨[], line⟩ = .ok none ⟨[], line⟩ := rfl
    exact results_of_end hend
  next => exact absurd h readToken_ne_end

namespace Cursor

theorem read_of_results_cons {c : Cursor} {t : Token} {rest : List (Except TokenError Token)}
    (h : c.results = .ok t :: rest) : ∃ after, c.read = .ok (some t) after ∧ after.results = rest := by
  cases hr : c.read with
  | ok t? after =>
    cases t? with
    | none => simp [results_of_end hr] at h
    | some u =>
      obtain ⟨hu, hrest⟩ := List.cons.inj ((results_of_token hr).symm.trans h)
      cases hu
      exact ⟨after, rfl, hrest⟩
  | error e after => simp [results_of_error hr] at h

theorem read_of_results_nil {c : Cursor} (h : c.results = []) : ∃ after, c.read = .ok none after := by
  cases hr : c.read with
  | ok t? after =>
    cases t? with
    | none => exact ⟨after, rfl⟩
    | some t => simp [results_of_token hr] at h
  | error e after => simp [results_of_error hr] at h

/-- A source has at most as many tokens and errors as characters. -/
theorem results_length_le (c : Cursor) : c.results.length ≤ c.rest.length := by
  induction hn : c.rest.length using Nat.strongRecOn generalizing c with
  | ind n ih =>
    cases hr : c.read with
    | ok t? after =>
      cases t? with
      | none => simp [results_of_end hr]
      | some t =>
        have hlt := read_length_lt_of_token hr
        have hle := ih _ (by omega) after rfl
        rw [results_of_token hr, List.length_cons]
        omega
    | error e after =>
      have hlt := read_length_lt_of_error hr
      have hle := ih _ (by omega) after rfl
      rw [results_of_error hr, List.length_cons]
      omega

end Cursor

namespace TokenStream

variable {s after : TokenStream}

theorem next_of_read {t? : Option Token} {c : Cursor} (hs : s.unreadToken = none)
    (h : s.cursor.read = .ok t? c) : s.next = .ok t? ⟨c, t?, none⟩ := by
  simp [next, hs, h]

theorem next_of_read_error {e : TokenError} {c : Cursor} (hs : s.unreadToken = none)
    (h : s.cursor.read = .error e c) : s.next = .error e ⟨c, s.last, none⟩ := by
  simp [next, hs, h]

/-- What is read next was taken back before, or it comes from the source. -/
theorem next_ok_cases {t? : Option Token} (h : s.next = .ok t? after) :
    (∃ t, s.unreadToken = some t ∧ t? = some t ∧ after = ⟨s.cursor, some t, none⟩) ∨
      s.unreadToken = none ∧ ∃ c, s.cursor.read = .ok t? c ∧ after = ⟨c, t?, none⟩ := by
  cases hs : s.unreadToken with
  | some t =>
    rw [next_of_unreadToken hs] at h
    cases h
    exact .inl ⟨t, rfl, rfl, rfl⟩
  | none =>
    cases hr : s.cursor.read with
    | ok u? c =>
      rw [next_of_read hs hr] at h
      cases h
      exact .inr ⟨rfl, c, rfl, rfl⟩
    | error e c =>
      rw [next_of_read_error hs hr] at h
      cases h

theorem read_of_next {t? : Option Token} (hs : s.unreadToken = none) (h : s.next = .ok t? after) :
    s.cursor.read = .ok t? after.cursor ∧ after.unreadToken = none := by
  obtain ⟨u, hu, -⟩ | ⟨-, c, hread, rfl⟩ := next_ok_cases h
  · rw [hs] at hu
    cases hu
  · exact ⟨hread, rfl⟩

theorem next_error_cases {e : TokenError} (h : s.next = .error e after) :
    s.unreadToken = none ∧ ∃ c, s.cursor.read = .error e c ∧ after = ⟨c, s.last, none⟩ := by
  cases hs : s.unreadToken with
  | some t =>
    rw [next_of_unreadToken hs] at h
    cases h
  | none =>
    cases hr : s.cursor.read with
    | ok u? c =>
      rw [next_of_read hs hr] at h
      cases h
    | error e' c =>
      rw [next_of_read_error hs hr] at h
      cases h
      exact ⟨rfl, c, rfl, rfl⟩

/-- Everything that is still to be read, a token that was taken back first. -/
def upcoming (s : TokenStream) : List (Except TokenError Token) :=
  (s.unreadToken.map Except.ok).toList ++ s.cursor.results

/-- The token that was read last can be taken back. -/
def CanUnread (s : TokenStream) (t : Token) : Prop :=
  s.last = some t ∧ s.unreadToken = none

@[simp] theorem upcoming_ofText (source : String) :
    (ofText source).upcoming = (Cursor.ofText source).results := by
  simp [ofText, upcoming]

theorem upcoming_of_next {t : Token} (h : s.next = .ok (some t) after) :
    s.upcoming = .ok t :: after.upcoming ∧ after.CanUnread t := by
  obtain ⟨u, hs, ht, rfl⟩ | ⟨hs, c, hr, rfl⟩ := next_ok_cases h
  · cases ht
    simp [upcoming, CanUnread, hs]
  · simp [upcoming, CanUnread, hs, Cursor.results_of_token hr]

theorem upcoming_of_next_none (h : s.next = .ok none after) : s.upcoming = [] := by
  obtain ⟨u, -, ht, -⟩ | ⟨hs, c, hr, -⟩ := next_ok_cases h
  · cases ht
  · simp [upcoming, hs, Cursor.results_of_end hr]

theorem upcoming_of_next_error {e : TokenError} (h : s.next = .error e after) :
    s.upcoming = .error e :: after.upcoming := by
  obtain ⟨hs, c, hr, rfl⟩ := next_error_cases h
  simp [upcoming, hs, Cursor.results_of_error hr]

/-- At the end of the source there is nothing to take back. -/
theorem last_of_next_none (h : s.next = .ok none after) : after.last = none := by
  obtain ⟨u, -, ht, -⟩ | ⟨-, c, -, rfl⟩ := next_ok_cases h
  · cases ht
  · rfl

theorem next_of_upcoming_cons {t : Token} {rest : List (Except TokenError Token)}
    (h : s.upcoming = .ok t :: rest) :
    ∃ after, s.next = .ok (some t) after ∧ after.upcoming = rest ∧ after.CanUnread t := by
  cases hu : s.unreadToken with
  | some u =>
    simp only [upcoming, hu, Option.map_some, Option.toList_some, List.cons_append,
      List.nil_append, List.cons.injEq, Except.ok.injEq] at h
    obtain ⟨rfl, rfl⟩ := h
    exact ⟨_, next_of_unreadToken hu, by simp [upcoming], rfl, rfl⟩
  | none =>
    have hc : s.cursor.results = .ok t :: rest := by simpa [upcoming, hu] using h
    obtain ⟨c, hr, hrest⟩ := Cursor.read_of_results_cons hc
    refine ⟨_, next_of_read hu hr, ?_, rfl, rfl⟩
    simpa [upcoming] using hrest

theorem next_of_upcoming_nil (h : s.upcoming = []) :
    ∃ after, s.next = .ok none after := by
  cases hu : s.unreadToken with
  | some u => simp [upcoming, hu] at h
  | none =>
    have hc : s.cursor.results = [] := by simpa [upcoming, hu] using h
    obtain ⟨c, hr⟩ := Cursor.read_of_results_nil hc
    exact ⟨_, next_of_read hu hr⟩

theorem unread_of_canUnread {t : Token} (h : s.CanUnread t) :
    ∃ after, s.unread = .ok () after ∧ after.upcoming = .ok t :: s.upcoming := by
  refine ⟨⟨s.cursor, none, some t⟩, by simp [unread, h.1], ?_⟩
  simp [upcoming, h.2]

end TokenStream

end JackVM
