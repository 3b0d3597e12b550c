import JackVM.CursorResults

namespace JackVM

/-- The tokens of a source, read one at a time, of which the last one read can be taken back. -/
structure TokenStream where
  cursor : Cursor
  /-- The token read last, as long as it can be taken back. -/
  last : Option Token
  /-- The token taken back, which is read again next. -/
  unreadToken : Option Token
  deriving DecidableEq, Repr

namespace TokenStream

def ofText (source : String) : TokenStream :=
  ⟨Cursor.ofText source, none, none⟩

/-- Reads the next token, none at the end of the source. An error leaves the token that can be taken
back as it was. -/
def next : EStateM TokenError TokenStream (Option Token) := fun s =>
  match s.unreadToken with
  | some t => .ok (some t) { s with last := some t, unreadToken := none }
  | none =>
    match s.cursor.read with
    | .ok t? after => .ok t? { s with cursor := after, last := t? }
    | .error e after => .error e { s with cursor := after }

/-- Takes back the last token, which can be done once. -/
def unread : EStateM TokenError TokenStream Unit := fun s =>
  match s.last with
  | some t => .ok () { s with last := none, unreadToken := some t }
  | none => .error .nothingToUnread s

theorem next_of_unreadToken {s : TokenStream} {t : Token} (h : s.unreadToken = some t) :
    s.next = .ok (some t) { s with last := some t, unreadToken := none } := by
  simp [next, h]

/-- A token that was taken back is the next one to be read. -/
theorem next_of_unread {s after : TokenStream} (h : s.unread = .ok () after) :
    ∃ t, s.last = some t ∧
      after.next = .ok (some t) { s with last := some t, unreadToken := none } := by
  unfold unread at h
  cases hl : s.last with
  | none => simp [hl] at h
  | some t =>
    simp only [hl, EStateM.Result.ok.injEq, true_and] at h
    subst h
    exact ⟨t, rfl, rfl⟩

end TokenStream

/-- A place that tokens come from, one at a time, of which the last one can be taken back. -/
class TokenSource (τ : Type) where
  next : EStateM TokenError τ (Option Token)
  unread : EStateM TokenError τ Unit
  /-- Takes notice that a term starts with a token, the one that was read last. -/
  beginTerm : Token → τ → τ
  /-- A bound on the depth of recursion that what is still to come asks for. -/
  depthBound : τ → Nat

instance : TokenSource TokenStream where
  next := TokenStream.next
  unread := TokenStream.unread
  beginTerm _ := id
  depthBound s := 4 * s.cursor.rest.length + 16

end JackVM
