import JackVM.Proofs.Upcoming

namespace JackVM

/-- What can be asked of a stream of tokens. -/
inductive StreamCall where
  | next
  | unread
  deriving DecidableEq, Repr

/-- What comes of a call: a result of reading, or whether the last token was taken back. -/
inductive StreamAnswer where
  | read (result : Except TokenError (Option Token))
  | unread (result : Except TokenError Unit)

/-- The answer to a call, and the stream afterwards, which a failed call leaves behind as well. -/
def TokenStream.call (s : TokenStream) : StreamCall → StreamAnswer × TokenStream
  | .next =>
    match s.next with
    | .ok t? after => (.read (.ok t?), after)
    | .error e after => (.read (.error e), after)
  | .unread =>
    match s.unread with
    | .ok _ after => (.unread (.ok ()), after)
    | .error e after => (.unread (.error e), after)

/-- The answers to calls on a new stream, latest first, and the stream afterwards. -/
def callAll (source : String) (calls : List StreamCall) : List StreamAnswer × TokenStream :=
  calls.foldl (fun (log, s) c => ((s.call c).1 :: log, (s.call c).2)) ([], .ofText source)

namespace StreamAnswer

/-- Some token was delivered, and since then neither was one taken back nor the end of the source
met. The log is latest first. -/
def CanTakeBack (log : List StreamAnswer) : Prop :=
  ∃ later t earlier, log = later ++ read (.ok (some t)) :: earlier ∧
    unread (.ok ()) ∉ later ∧ read (.ok none) ∉ later

/-- The last token that was delivered is this one. -/
def LatestToken (log : List StreamAnswer) (t : Token) : Prop :=
  ∃ later earlier, log = later ++ read (.ok (some t)) :: earlier ∧
    ∀ u, read (.ok (some u)) ∉ later

/-- Whether a token was taken back and nothing was asked for since, so that reading delivers it
again. -/
def awaitsAgain : List StreamAnswer → Bool
  | unread (.ok _) :: _ => true
  | unread (.error _) :: log => awaitsAgain log
  | _ => false

/-- The results of reading, latest first, apart from those that deliver a token again. -/
def fresh : List StreamAnswer → List (Except TokenError (Option Token))
  | [] => []
  | read r :: log => if awaitsAgain log then fresh log else r :: fresh log
  | unread _ :: log => fresh log

/-- The token that can be taken back. -/
def held? : List StreamAnswer → Option Token
  | read (.ok t?) :: _ => t?
  | unread (.ok _) :: _ => none
  | read (.error _) :: log | unread (.error _) :: log => held? log
  | [] => none

/-- The token that was taken back, as long as nothing was asked for since. -/
def takenBack? : List StreamAnswer → Option Token
  | unread (.ok _) :: log => held? log
  | unread (.error _) :: log => takenBack? log
  | _ => none

variable {log : List StreamAnswer}

theorem held?_isSome_iff : (held? log).isSome = true ↔ CanTakeBack log := by
  constructor
  · intro h
    fun_induction held? log with
    | case1 t? log' =>
      obtain ⟨t, rfl⟩ := Option.isSome_iff_exists.mp h
      exact ⟨[], t, log', rfl, List.not_mem_nil, List.not_mem_nil⟩
    | case2 => cases h
    | case3 e log' ih | case4 e log' ih =>
      obtain ⟨later, t, earlier, rfl, hback, hend⟩ := ih h
      exact ⟨_ :: later, t, earlier, rfl, by simpa using hback, by simpa using hend⟩
    | case5 => cases h
  · rintro ⟨later, t, earlier, rfl, hback, hend⟩
    induction later with
    | nil => rfl
    | cons a later ih =>
      rw [List.mem_cons, not_or] at hback hend
      have hlater := ih hback.2 hend.2
      match a, hback.1, hend.1 with
      | read (.ok none), _, hend => exact absurd rfl hend
      | unread (.ok ()), hback, _ => exact absurd rfl hback
      | read (.ok (some u)), _, _ => rfl
      | read (.error e), _, _ | unread (.error e), _, _ => exact hlater

theorem latestToken_of_held? {t : Token} (h : held? log = some t) : LatestToken log t := by
  fun_induction held? log with
  | case1 t? log' =>
    subst h
    exact ⟨[], log', rfl, fun _ => List.not_mem_nil⟩
  | case2 => cases h
  | case3 e log' ih | case4 e log' ih =>
    obtain ⟨later, earlier, rfl, hlater⟩ := ih h
    exact ⟨_ :: later, earlier, rfl, by simpa using hlater⟩
  | case5 => cases h

theorem awaitsAgain_of_refused {later : List StreamAnswer}
    (h : ∀ a ∈ later, ∃ e, a = unread (.error e)) (earlier : List StreamAnswer) :
    awaitsAgain (later ++ unread (.ok ()) :: earlier) = true ∧
      takenBack? (later ++ unread (.ok ()) :: earlier) = held? earlier := by
  induction later with
  | nil => exact ⟨rfl, rfl⟩
  | cons a later ih =>
    obtain ⟨⟨e, rfl⟩, hlater⟩ := List.forall_mem_cons.mp h
    exact ih hlater

end StreamAnswer

/-- What a stream keeps, told by the log of the calls on it. -/
structure TokenStream.Tells (source : String) (log : List StreamAnswer) (s : TokenStream) :
    Prop where
  last : s.last = StreamAnswer.held? log
  unreadToken : s.unreadToken = StreamAnswer.takenBack? log
  awaits : s.unreadToken.isSome = StreamAnswer.awaitsAgain log
  /-- What was read and what is still to be read are the results of the source. Past its end there
  may be further answers. -/
  results : ∃ ends, (StreamAnswer.fresh log).reverse ++ s.cursor.results.map (Except.map some) =
    (Cursor.ofText source).results.map (Except.map some) ++ List.replicate ends (.ok none)

section Calls

open StreamAnswer

variable {source : String} {log : List StreamAnswer} {s : TokenStream}

theorem call_next_of_ok {t? : Option Token} {after : TokenStream} (h : s.next = .ok t? after) :
    s.call .next = (.read (.ok t?), after) := by
  simp only [TokenStream.call, h]

theorem call_next_of_error {e : TokenError} {after : TokenStream} (h : s.next = .error e after) :
    s.call .next = (.read (.error e), after) := by
  simp only [TokenStream.call, h]

namespace TokenStream.Tells

theorem next (h : s.Tells source log) :
    (s.call .next).2.Tells source ((s.call .next).1 :: log) := by
  obtain ⟨ends, hresults⟩ := h.results
  cases hs : s.unreadToken with
  | some t =>
    have hawaits : awaitsAgain log = true := by rw [← h.awaits, hs]; rfl
    rw [call_next_of_ok (next_of_unreadToken hs)]
    exact ⟨rfl, rfl, rfl, ends, by simpa [fresh, hawaits] using hresults⟩
  | none =>
    have hawaits : awaitsAgain log = false := by rw [← h.awaits, hs]; rfl
    cases hr : s.cursor.read with
    | ok t? c =>
      rw [call_next_of_ok (next_of_read hs hr)]
      cases t? with
      | some t =>
        rw [Cursor.results_of_token hr] at hresults
        exact ⟨rfl, rfl, rfl, ends, by simpa [fresh, hawaits, Except.map] using hresults⟩
      | none =>
        rw [Cursor.results_of_end hr] at hresults
        refine ⟨rfl, rfl, rfl, ends + 1, ?_⟩
        rw [List.map_nil, List.append_nil] at hresults
        simp only [fresh, hawaits, Bool.false_eq_true, ↓reduceIte, List.reverse_cons, hresults,
          Cursor.results_after_end hr, List.map_nil, List.append_nil, List.append_assoc,
          List.replicate_succ']
    | error e c =>
      rw [call_next_of_error (next_of_read_error hs hr)]
      rw [Cursor.results_of_error hr] at hresults
      exact ⟨h.last, rfl, rfl, ends, by simpa [fresh, hawaits, Except.map] using hresults⟩

theorem unread (h : s.Tells source log) :
    (s.call .unread).2.Tells source ((s.call .unread).1 :: log) := by
  cases hs : s.last with
  | some t =>
    have hcall : s.call .unread = (.unread (.ok ()), ⟨s.cursor, none, some t⟩) := by
      simp [call, TokenStream.unread, hs]
    rw [hcall]
    exact ⟨rfl, hs.symm.trans h.last, rfl, h.results⟩
  | none =>
    have hcall : s.call .unread = (.unread (.error .nothingToUnread), s) := by
      simp [call, TokenStream.unread, hs]
    rw [hcall]
    exact ⟨h.last, h.unreadToken, h.awaits, h.results⟩

theorem call (h : s.Tells source log) (c : StreamCall) :
    (s.call c).2.Tells source ((s.call c).1 :: log) := by
  cases c with
  | next => exact h.next
  | unread => exact h.unread

end TokenStream.Tells

theorem ofText_tells (source : String) : (TokenStream.ofText source).Tells source [] :=
  ⟨rfl, rfl, rfl, 0, by simp [fresh, TokenStream.ofText]⟩

theorem callAll_tells (source : String) (calls : List StreamCall) :
    (callAll source calls).2.Tells source (callAll source calls).1 := by
  unfold callAll
  exact List.foldlRecOn (motive := fun p : List StreamAnswer × TokenStream =>
    p.2.Tells source p.1) calls _ (ofText_tells source) fun _ h c _ => h.call c

theorem fresh_reads (rs : List (Except TokenError (Option Token))) :
    fresh (rs.map .read) = rs := by
  induction rs with
  | nil => rfl
  | cons r rs ih =>
    have hawaits : awaitsAgain (rs.map .read) = false := by cases rs <;> rfl
    rw [List.map_cons, fresh, hawaits, ih]
    rfl

theorem exists_read_of_call_next (s : TokenStream) : ∃ r, (s.call .next).1 = .read r := by
  cases hs : s.next with
  | ok t? after => exact ⟨_, congrArg Prod.fst (call_next_of_ok hs)⟩
  | error e after => exact ⟨_, congrArg Prod.fst (call_next_of_error hs)⟩

theorem callAll_replicate_next (source : String) (n : Nat) :
    ∃ rs : List (Except TokenError (Option Token)),
      (callAll source (List.replicate n .next)).1 = rs.map .read ∧ rs.length = n := by
  induction n with
  | zero => exact ⟨[], rfl, rfl⟩
  | succ n ih =>
    obtain ⟨rs, hlog, hlength⟩ := ih
    obtain ⟨r, hr⟩ := exists_read_of_call_next (callAll source (List.replicate n .next)).2
    refine ⟨r :: rs, ?_, congrArg Nat.succ hlength⟩
    rw [List.map_cons, ← hlog, ← hr, List.replicate_succ', callAll, List.foldl_append]
    rfl

/-- Reading on and on gives the results of the source one after the other, and from then on that
the end is met. -/
theorem callAll_next (source : String) (ends : Nat) :
    (callAll source (List.replicate ((Cursor.ofText source).results.length + ends) .next)).1.reverse
      = ((Cursor.ofText source).results.map (Except.map some) ++
          List.replicate ends (Except.ok none)).map .read := by
  generalize hn : (Cursor.ofText source).results.length + ends = n
  obtain ⟨rs, hlog, hlength⟩ := callAll_replicate_next source n
  obtain ⟨more, hresults⟩ := (callAll_tells source (List.replicate n .next)).results
  generalize (callAll source (List.replicate n .next)).2.cursor.results = unread at hresults
  rw [hlog, fresh_reads] at hresults
  -- As many results were read as the source has with that many ends, so the others are ends too.
  have hcount := congrArg List.length hresults
  simp only [List.length_append, List.length_reverse, List.length_map, List.length_replicate]
    at hcount
  obtain rfl : more = ends + unread.length := by omega
  rw [← List.replicate_append_replicate, ← List.append_assoc] at hresults
  have hfront := (List.append_inj hresults (by simp [hlength, hn])).1
  rw [hlog, ← List.map_reverse, hfront]

/-- Whatever is asked of a stream, the last token that was delivered can be taken back once, as
long as the end was not met, and is delivered again next. Apart from that reading gives the results
of the source in order. -/
theorem calls_keepOrder (source : String) (calls : List StreamCall) :
    let log := (callAll source calls).1
    let s := (callAll source calls).2
    ((∃ after, s.unread = .ok () after) ↔ CanTakeBack log) ∧
      (¬CanTakeBack log → s.unread = .error .nothingToUnread s) ∧
      (∀ later earlier, log = later ++ .unread (.ok ()) :: earlier →
        (∀ a ∈ later, ∃ e, a = .unread (.error e)) →
          ∃ t after, s.next = .ok (some t) after ∧ LatestToken earlier t) ∧
      ∃ ends, (fresh log).reverse <+:
        (Cursor.ofText source).results.map (Except.map some) ++ List.replicate ends (.ok none) := by
  intro log s
  have h : s.Tells source log := callAll_tells source calls
  have hunread : (∃ after, s.unread = .ok () after) ↔ CanTakeBack log := by
    rw [← held?_isSome_iff, ← h.last]
    cases hs : s.last with
    | none => simp [TokenStream.unread, hs]
    | some t => simp [TokenStream.unread, hs]
  refine ⟨hunread, fun hlog => ?_, fun later earlier hlog hlater => ?_, ?_⟩
  · have hs : s.last = none := by
      rw [← held?_isSome_iff, ← h.last] at hlog
      simpa using hlog
    simp [TokenStream.unread, hs]
  · obtain ⟨hawaits, htaken⟩ := awaitsAgain_of_refused hlater earlier
    rw [← hlog, ← h.awaits] at hawaits
    rw [← hlog, ← h.unreadToken] at htaken
    obtain ⟨t, hs⟩ := Option.isSome_iff_exists.mp hawaits
    exact ⟨t, _, TokenStream.next_of_unreadToken hs, latestToken_of_held? (htaken.symm.trans hs)⟩
  · obtain ⟨ends, hresults⟩ := h.results
    exact ⟨ends, _, hresults⟩

/-- An error does not stand in the way of taking back the token before it, but the end does. -/
example : (callAll "a #" [.next, .next, .unread, .next, .next, .unread]).1 =
    [.unread (.error .nothingToUnread), .read (.ok none),
     .read (.ok (some ⟨.identifier "a", 1⟩)), .unread (.ok ()),
     .read (.error (.unknownWord 1 "#")), .read (.ok (some ⟨.identifier "a", 1⟩))] :=
  rfl

end Calls

end JackVM
