import JackVM.Proofs.TwoRuns

namespace JackVM

namespace TokenStream

variable {s after : TokenStream}

/-- All results of reading to the end of the source, with the end as the last one. -/
def sequence (s : TokenStream) : List (Except TokenError (Option Token)) :=
  s.upcoming.map (Except.map some) ++ [.ok none]

theorem sequence_of_next {t : Token} (h : s.next = .ok (some t) after) :
    s.sequence = .ok (some t) :: after.sequence := by
  rw [sequence, (upcoming_of_next h).1]
  rfl

theorem sequence_of_next_none (h : s.next = .ok none after) : s.sequence = [.ok none] := by
  rw [sequence, upcoming_of_next_none h]
  rfl

theorem sequence_of_next_error {e : TokenError} (h : s.next = .error e after) :
    s.sequence = .error e :: after.sequence := by
  rw [sequence, upcoming_of_next_error h]
  rfl

end TokenStream

namespace Reading

variable {s s' τ : TokenStream} {rs rs' : List (Except TokenError (Option Token))} {δ : Drift}

theorem isPrefix (h : Reading s rs τ) : rs <+: s.sequence := by
  induction h with
  | nothing => exact List.nil_prefix
  | token hs _ ih =>
    rw [TokenStream.sequence_of_next hs]
    exact List.cons_prefix_cons.mpr ⟨rfl, ih⟩
  | atEnd hs => simp [TokenStream.sequence_of_next_none hs]
  | error hs =>
    rw [TokenStream.sequence_of_next_error hs]
    exact List.cons_prefix_cons.mpr ⟨rfl, List.nil_prefix⟩

/-- The first result of a sequence is the one that is read next, and a token is followed by the
others. -/
theorem next_of_isPrefix {r : Except TokenError (Option Token)} (h : r :: rs <+: s.sequence) :
    ∃ mid, Reading s [r] mid ∧ ∀ t, r = .ok (some t) → rs <+: mid.sequence := by
  cases hs : s.next with
  | error e mid =>
    rw [TokenStream.sequence_of_next_error hs, List.cons_prefix_cons] at h
    obtain ⟨rfl, -⟩ := h
    exact ⟨mid, .error hs, nofun⟩
  | ok t? mid =>
    cases t? with
    | none =>
      rw [TokenStream.sequence_of_next_none hs, List.cons_prefix_cons] at h
      obtain ⟨rfl, -⟩ := h
      exact ⟨mid, .atEnd hs, nofun⟩
    | some t =>
      rw [TokenStream.sequence_of_next hs, List.cons_prefix_cons] at h
      obtain ⟨rfl, hrest⟩ := h
      exact ⟨mid, .token hs (.nothing mid), fun _ _ => hrest⟩

theorem after_token {t : Token} {mid : TokenStream} (h : Reading s [.ok (some t)] mid)
    (hmid : Reading mid rs τ) : Reading s (.ok (some t) :: rs) τ := by
  cases h with
  | token hs hnothing =>
    cases hnothing
    exact .token hs hmid

/-- What another source begins with in the same way can be read from it. -/
theorem exists_of_isPrefix (h : Reading s rs τ) (hsame : List.Forall₂ (SameResult δ) rs rs')
    (hrs' : rs' <+: s'.sequence) : ∃ τ', Reading s' rs' τ' := by
  induction h generalizing s' rs' with
  | nothing =>
    cases hsame
    exact ⟨s', .nothing s'⟩
  | token _ _ ih =>
    obtain _ | ⟨hresult, hsame⟩ := hsame
    obtain ⟨mid, hfirst, hrest⟩ := next_of_isPrefix hrs'
    cases hresult
    obtain ⟨τ', hr⟩ := ih hsame (hrest _ rfl)
    exact ⟨τ', hfirst.after_token hr⟩
  | atEnd | error =>
    obtain _ | ⟨hresult, hsame⟩ := hsame
    obtain ⟨mid, hfirst, -⟩ := next_of_isPrefix hrs'
    cases hsame
    exact ⟨mid, hfirst⟩

theorem length_upcoming_le (h : Reading s rs τ) (hτ : τ.last ≠ none) :
    τ.upcoming.length ≤ s.upcoming.length := by
  induction h with
  | nothing => exact Nat.le_refl _
  | token hs _ ih =>
    rw [(TokenStream.upcoming_of_next hs).1, List.length_cons]
    exact Nat.le_succ_of_le (ih hτ)
  | atEnd hs => exact absurd (TokenStream.last_of_next_none hs) hτ
  | error hs =>
    rw [TokenStream.upcoming_of_next_error hs, List.length_cons]
    exact Nat.le_succ _

/-- After a token, a place is come back to only by reading nothing. -/
theorem eq_nil_of_canUnread {t : Token} (h : Reading s rs s) (hs : s.CanUnread t) : rs = [] := by
  have hlast : s.last ≠ none := by simp [hs.1]
  generalize hτ : s = τ at h hlast
  cases h with
  | nothing => rfl
  | token hmid hr =>
    have hlength := congrArg List.length (TokenStream.upcoming_of_next hmid).1
    have hle := hr.length_upcoming_le hlast
    rw [List.length_cons] at hlength
    omega
  | atEnd hmid => exact absurd (TokenStream.last_of_next_none hmid) hlast
  | error hmid =>
    have hlength := congrArg List.length (TokenStream.upcoming_of_next_error hmid)
    rw [List.length_cons] at hlength
    omega

/-- Where reading has come to tells what was read. -/
theorem unique (h : Reading s rs τ) (h' : Reading s rs' τ) (hrs : rs ≠ []) (hrs' : rs' ≠ []) :
    rs = rs' := by
  induction h generalizing rs' with
  | nothing => exact absurd rfl hrs
  | @token s mid τ t rs hs hr ih =>
    cases h' with
    | nothing => exact absurd rfl hrs'
    | atEnd hs' => cases hs.symm.trans hs'
    | error hs' => cases hs.symm.trans hs'
    | @token _ _ _ _ rs' hs' hr' =>
      cases hs.symm.trans hs'
      have hlast := (TokenStream.upcoming_of_next hs).2
      congr 1
      by_cases hnil : rs = []
      · subst hnil
        cases hr
        exact (hr'.eq_nil_of_canUnread hlast).symm
      · by_cases hnil' : rs' = []
        · subst hnil'
          cases hr'
          exact hr.eq_nil_of_canUnread hlast
        · exact ih hr' hnil hnil'
  | atEnd hs =>
    cases h' with
    | nothing => exact absurd rfl hrs'
    | token hs' => cases hs.symm.trans hs'
    | error hs' => cases hs.symm.trans hs'
    | atEnd hs' => rfl
  | error hs =>
    cases h' with
    | nothing => exact absurd rfl hrs'
    | token hs' => cases hs.symm.trans hs'
    | atEnd hs' => cases hs.symm.trans hs'
    | error hs' =>
      cases hs.symm.trans hs'
      rfl

end Reading

/-- Lines are left out of account. -/
def Drift.lineless : Drift :=
  ⟨fun _ => 0, fun _ => 0, fun _ => ⟨0, rfl⟩, 0⟩

/-- Compiling a source obtains these results of reading, and no more. -/
structure Obtains {σ : Type} [CodeSink σ] (source : String) (sink : σ)
    (rs : List (Except TokenError (Option Token))) : Prop where
  nonempty : rs ≠ []
  reading : Reading (.ofText source) rs (Compilation.ofText source sink).compileClass.2.tokens

section Obtained

variable {σ : Type} [CodeSink σ]

/-- Of a source only the results that are obtained from it count, and of those not the lines. -/
theorem compileTo_of_obtained (source : String) (sink : σ) : ∃ rs, Obtains source sink rs ∧
    (∀ rs', Obtains source sink rs' → rs' = rs) ∧ rs <+: (TokenStream.ofText source).sequence ∧
    ∀ source' rs', rs' <+: (TokenStream.ofText source').sequence →
      List.Forall₂ (SameResult .lineless) rs rs' →
        (compileTo source' sink).2 = (compileTo source sink).2 ∧
        (compileTo source' sink).1.mapError (·.mapLines fun _ => 0) =
          (compileTo source sink).1.mapError (·.mapLines fun _ => 0) ∧
        Obtains source' sink rs' := by
  have hK : TakeAlike .lineless (Eq (α := σ)) := takeAlike_eq rfl
  have hmatched (source' : String) : Matched .lineless Eq (Compilation.ofText source sink)
      (Compilation.ofText source' sink) := ⟨rfl, rfl, rfl, rfl, rfl⟩
  have hends (source' : String) := compileClass_endsAlike hK (hmatched source')
  obtain ⟨rs, hrs, hreads, -⟩ := hends source
  have hunique (qs) (hqs : qs ≠ []) (h : Reading (.ofText source) qs _) : qs = rs :=
    h.unique hreads hqs hrs
  refine ⟨rs, ⟨hrs, hreads⟩, fun qs h => hunique qs h.nonempty h.reading, hreads.isPrefix, ?_⟩
  intro source' rs' hrs' hsame
  obtain ⟨qs, hqs, hreads', halike⟩ := hends source'
  obtain rfl := hunique qs hqs hreads'
  obtain ⟨τ', hr⟩ := hreads.exists_of_isPrefix hsame hrs'
  have hclass := halike rs' τ' hr hsame
  refine ⟨hclass.matched.sink.symm, hclass.result.symm, ?_, hclass.tokens ▸ hr⟩
  rintro rfl
  cases hsame
  exact hrs rfl

end Obtained

/-- A class without a name, and a source that goes on with something else from there, which is not
even a token. -/
theorem compileTo_of_obtained_number :
    (compileTo "class\n1 \"" (#[] : Array Instruction)).1.mapError (·.mapLines fun _ => 0) =
      .error (.unexpected ⟨.integer "1", 0⟩ .identifier) := by
  obtain ⟨rs, -, hunique, -, hsame⟩ :=
    compileTo_of_obtained "class 1" (#[] : Array Instruction)
  have hfirst : Obtains "class 1" (#[] : Array Instruction)
      [.ok (some ⟨.keyword .kwClass, 1⟩), .ok (some ⟨.integer "1", 1⟩)] :=
    ⟨List.cons_ne_nil _ _, .token rfl (.token rfl (.nothing _))⟩
  obtain rfl := hunique _ hfirst
  have hprefix : [.ok (some ⟨.keyword .kwClass, 1⟩), .ok (some ⟨.integer "1", 2⟩)] <+:
      (TokenStream.ofText "class\n1 \"").sequence :=
    Reading.isPrefix (.token rfl (.token rfl (.nothing _)))
  have hresults := hsame _ _ hprefix (.cons (.token ⟨rfl, rfl⟩) (.cons (.token ⟨rfl, rfl⟩) .nil))
  rw [hresults.2.1]
  decide +kernel

end JackVM
