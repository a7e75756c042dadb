import SeekParse.Session

/-!
# What the operations come to

An operation of a cursor is written as steps, each of which may fail, and what a failure leaves
behind is part of what the operation does. The equations of this file take the steps together: one
case distinction for each operation, on what the source does. Proofs about cursors start from them
and never open the operations again.

`Source.Alike` is what no operation changes in a source: its bytes, where it stops being readable,
and how far it can seek. Only the head moves, and seeks are used up. A source that grants any number
of seeks stays one.
-/

namespace SeekParse

variable {ε σ α β : Type}

/-- The state that a computation leaves, whether it succeeds or fails. -/
def stateAfter (x : EStateM ε σ α) (s : σ) : σ :=
  match x s with
  | .ok _ s' => s'
  | .error _ s' => s'

/-- What a computation is answered with, whatever state it leaves. -/
def answerOf : EStateM.Result ε σ α → Except ε α
  | .ok a _ => .ok a
  | .error e _ => .error e

theorem stateAfter_bind (x : EStateM ε σ α) (f : α → EStateM ε σ β) (s : σ) :
    stateAfter (x >>= f) s =
      match x s with
      | .ok a s' => stateAfter (f a) s'
      | .error _ s' => s' := by
  simp only [stateAfter, bind, EStateM.bind]
  cases x s <;> rfl

/-- What succeeds has succeeded at each of its two parts. -/
theorem ok_of_bind {x : EStateM ε σ α} {f : α → EStateM ε σ β} {s s' : σ} {b : β}
    (h : (x >>= f) s = .ok b s') : ∃ a s₁, x s = .ok a s₁ ∧ f a s₁ = .ok b s' := by
  simp only [bind, EStateM.bind] at h
  cases hx : x s with
  | ok a s₁ =>
      rw [hx] at h
      exact ⟨a, s₁, rfl, h⟩
  | error e s₁ =>
      rw [hx] at h
      cases h

/-- A computation that never succeeds, wherever it starts. -/
def Fails (x : EStateM ε σ α) : Prop := ∀ s a s', x s ≠ .ok a s'

theorem Fails.throw (e : ε) : Fails (throw e : EStateM ε σ α) := nofun

/-- What fails in the end fails. -/
theorem Fails.bind {x : EStateM ε σ α} {f : α → EStateM ε σ β} (hf : ∀ a, Fails (f a)) :
    Fails (x >>= f) := by
  intro s b s' h
  obtain ⟨a, s₁, -, hrest⟩ := ok_of_bind h
  exact hf a s₁ b s' hrest

namespace Source

/-! ## Seeking -/

/-- Where a seek to an offset ends, if it is granted. -/
def landing (s : Source) (offset : Nat) : Nat :=
  match s.faults.seekLimit with
  | some limit => min offset limit
  | none => offset

/-- The source once it has granted a seek. -/
def granted (s : Source) : Source :=
  { s with faults := { s.faults with seeksLeft := s.faults.seeksLeft.map (· - 1) } }

theorem seekTo_eq (offset : Nat) (s : Source) :
    seekTo offset s =
      if s.faults.seeksLeft = some 0 then .error (.seek offset .notSeekable) s
      else if s.landing offset = offset then .ok () { s.granted with head := offset }
      else .error (.seek offset (.landedAt (s.landing offset)))
        { s.granted with head := s.landing offset } := by
  have hseek : seek offset s = if s.faults.seeksLeft = some 0 then .error .notSeekable s
      else .ok (s.landing offset) { s.granted with head := s.landing offset } := rfl
  simp only [seekTo, bind, EStateM.bind, EStateM.adaptExcept, hseek]
  by_cases h0 : s.faults.seeksLeft = some 0
  · rw [if_pos h0, if_pos h0]
  · rw [if_neg h0, if_neg h0]
    dsimp only
    by_cases hl : s.landing offset = offset
    · rw [if_pos hl, if_pos hl, hl]
      rfl
    · rw [if_neg hl, if_neg hl]
      rfl

/-- A seek that succeeds has put the head where it was to be. -/
theorem head_of_seekTo {offset : Nat} {s s' : Source} (h : seekTo offset s = .ok () s') :
    s'.head = offset := by
  rw [seekTo_eq] at h
  split at h
  · cases h
  · split at h <;> cases h
    rfl

/-- A seek fails as a seek. -/
theorem error_of_seekTo {offset : Nat} {e : SourceError} {s s' : Source}
    (h : seekTo offset s = .error e s') : ∃ cause, e = .seek offset cause := by
  rw [seekTo_eq] at h
  split at h
  · cases h
    exact ⟨_, rfl⟩
  · split at h <;> cases h
    exact ⟨_, rfl⟩

/-! ## What no operation changes -/

/-- `s.Alike s'`: the two differ at most in where their heads are and in how many seeks they still
grant, and `s'` grants any number if `s` does. -/
structure Alike (s s' : Source) : Prop where
  contents : s'.contents = s.contents
  unreadableFrom : s'.faults.unreadableFrom = s.faults.unreadableFrom
  seekLimit : s'.faults.seekLimit = s.faults.seekLimit
  seeksLeft : s.faults.seeksLeft = none → s'.faults.seeksLeft = none

theorem Alike.refl (s : Source) : s.Alike s := ⟨rfl, rfl, rfl, id⟩

theorem Alike.trans {s s' s'' : Source} (h : s.Alike s') (h' : s'.Alike s'') : s.Alike s'' :=
  ⟨h'.contents.trans h.contents, h'.unreadableFrom.trans h.unreadableFrom,
    h'.seekLimit.trans h.seekLimit, fun hs => h'.seeksLeft (h.seeksLeft hs)⟩

theorem Alike.bytes {s s' : Source} (h : s.Alike s') : s'.bytes = s.bytes :=
  congrArg Array.toList h.contents

/-- With any number of seeks to grant, the head is all that can differ. -/
theorem Alike.eq_of_head {s s' : Source} (h : s.Alike s') (hs : s.faults.seeksLeft = none)
    (hhead : s'.head = s.head) : s' = s := by
  obtain ⟨contents, head, unreadableFrom, seeksLeft, seekLimit⟩ := s
  obtain ⟨contents', head', unreadableFrom', seeksLeft', seekLimit'⟩ := s'
  obtain ⟨hcontents, hread, hlimit, hleft⟩ := h
  -- each field is equal, the seeks left because both sources grant any number
  cases hcontents
  cases hread
  cases hlimit
  cases hhead
  cases hs
  cases hleft rfl
  rfl

theorem alike_granted (s : Source) (head : Nat) : s.Alike { s.granted with head } :=
  ⟨rfl, rfl, rfl, fun hs => by simp [granted, hs]⟩

theorem alike_seekTo (offset : Nat) (s : Source) : s.Alike (stateAfter (seekTo offset) s) := by
  rw [stateAfter, seekTo_eq]
  by_cases h0 : s.faults.seeksLeft = some 0
  · rw [if_pos h0]
    exact .refl s
  · rw [if_neg h0]
    by_cases hl : s.landing offset = offset
    · rw [if_pos hl]
      exact alike_granted s _
    · rw [if_neg hl]
      exact alike_granted s _

/-- What a read comes to. -/
theorem read_cases (s : Source) :
    (s.readFails = true ∧ s.read = .error .deviceLost s)
      ∨ (∃ byte, s.contents[s.head]? = some byte
          ∧ s.read = .ok (some byte) { s with head := s.head + 1 })
      ∨ (s.contents[s.head]? = none ∧ s.read = .ok none s) := by
  rw [read]
  split
  · exact .inl ⟨‹_›, rfl⟩
  · cases h : s.contents[s.head]? with
    | some byte => exact .inr (.inl ⟨byte, rfl, rfl⟩)
    | none => exact .inr (.inr ⟨rfl, rfl⟩)

theorem alike_readUpTo (origin count : Nat) (taken : List UInt8) (s : Source) :
    s.Alike (stateAfter (readUpTo origin count taken) s) := by
  induction count generalizing taken s with
  | zero => exact .refl s
  | succ count ih =>
      rw [readUpTo, stateAfter_bind, readFrom, EStateM.adaptExcept]
      rcases read_cases s with ⟨-, hr⟩ | ⟨byte, -, hr⟩ | ⟨-, hr⟩
      · rw [hr]
        exact .refl s
      · rw [hr]
        have hmoved : s.Alike { s with head := s.head + 1 } := ⟨rfl, rfl, rfl, id⟩
        exact hmoved.trans (ih (byte :: taken) _)
      · rw [hr]
        exact .refl s

theorem alike_readRange (first past : Nat) (s : Source) :
    s.Alike (stateAfter (readRange first past) s) := by
  rw [readRange]
  split
  · exact .refl s
  · rw [stateAfter_bind]
    have hseek := alike_seekTo first s
    rw [stateAfter] at hseek
    cases hs : seekTo first s with
    | ok _ s' =>
        rw [hs] at hseek
        exact hseek.trans (alike_readUpTo first (past - first) [] s')
    | error e s' =>
        rw [hs] at hseek
        exact hseek

end Source

namespace Cursor

/-! ## Moving -/

/-- What a step of a cursor comes to. -/
theorem advance_cases (c : Cursor) :
    (c.state.isActive = false ∧ advance c = .ok false c)
      ∨ (c.state.isActive = true ∧ c.source.readFails = true
          ∧ advance c = .error (.read c.state.position .deviceLost) c)
      ∨ (∃ byte, c.state.isActive = true ∧ c.source.contents[c.source.head]? = some byte
          ∧ advance c = .ok true
              { c with
                source := { c.source with head := c.source.head + 1 }
                state := c.state.next byte })
      ∨ (c.state.isActive = true ∧ c.source.contents[c.source.head]? = none
          ∧ advance c = .ok false { c with state := c.state.atEnd }) := by
  rw [advance]
  split
  · rename_i hactive
    rcases c.source.read_cases with ⟨hf, hr⟩ | ⟨byte, hb, hr⟩ | ⟨hb, hr⟩
    · rw [hr]
      exact .inr (.inl ⟨hactive, hf, rfl⟩)
    · rw [hr]
      exact .inr (.inr (.inl ⟨byte, hactive, hb, rfl⟩))
    · rw [hr]
      exact .inr (.inr (.inr ⟨hactive, hb, rfl⟩))
  · rename_i hactive
    exact .inl ⟨Bool.eq_false_iff.2 hactive, rfl⟩

theorem restore_eq (s : State) (c : Cursor) :
    restore s c =
      match Source.seekTo s.position c.source with
      | .ok _ source => .ok () { c with source, state := s }
      | .error e source => .error e { c with source } := by
  simp only [restore, bind, EStateM.bind, onSource]
  cases Source.seekTo s.position c.source <;> rfl

/-! ## Looking without moving -/

/-- A lookahead goes back whatever came before, and a failure to go back is the one reported. -/
theorem lookahead_eq (x : CursorM α) (c : Cursor) :
    lookahead x c =
      match restore c.state (stateAfter x c) with
      | .error e c' => .error e c'
      | .ok _ c' =>
        match x c with
        | .ok a _ => .ok a c'
        | .error e _ => .error e c' := by
  have hsave : (save : CursorM State) c = .ok c.state c := rfl
  cases h : x c <;>
    (simp only [lookahead, bind, EStateM.bind, attempt, hsave, stateAfter, h]
     cases restore c.state _ <;> rfl)

/-- A slice goes back to where the state has the head, whatever came before. -/
theorem slice_eq {first past : Nat} (h : first < past) (c : Cursor) :
    slice first past c =
      match Source.seekTo c.state.position
        (stateAfter (Source.readRange first past) c.source) with
      | .error e source => .error e { c with source }
      | .ok _ source =>
        match Source.readRange first past c.source with
        | .ok bytes _ => .ok bytes { c with source }
        | .error e _ => .error e { c with source } := by
  have hsave : (save : CursorM State) c = .ok c.state c := rfl
  cases hr : Source.readRange first past c.source <;>
    (simp only [slice, if_neg (Nat.not_le.2 h), bind, EStateM.bind, attempt, onSource, hsave,
      stateAfter, hr]
     cases Source.seekTo c.state.position _ <;> rfl)

/-- Nothing is asked of a source for an empty slice. -/
theorem slice_of_le {first past : Nat} (h : past ≤ first) (c : Cursor) :
    slice first past c = .ok [] c := by
  simp only [slice, if_pos h]
  rfl

/-- A slice that is not empty fails on its way back, or it has come back, and is then what reading
the range comes to. -/
theorem slice_cases {first past : Nat} (hlt : first < past) (c : Cursor) :
    (∃ cause source, slice first past c = .error (.seek c.state.position cause) { c with source }
        ∧ c.source.Alike source)
      ∨ ∃ source, c.source.Alike source ∧ source.head = c.state.position
        ∧ ((∃ bytes read, Source.readRange first past c.source = .ok bytes read
              ∧ slice first past c = .ok bytes { c with source })
          ∨ ∃ e read, Source.readRange first past c.source = .error e read
              ∧ slice first past c = .error e { c with source }) := by
  rw [slice_eq hlt]
  have hread := Source.alike_readRange first past c.source
  generalize stateAfter (Source.readRange first past) c.source = read at hread
  have hseek := hread.trans (Source.alike_seekTo c.state.position read)
  cases hs : Source.seekTo c.state.position read with
  | error e source =>
      rw [stateAfter, hs] at hseek
      obtain ⟨cause, rfl⟩ := Source.error_of_seekTo hs
      exact .inl ⟨cause, source, rfl, hseek⟩
  | ok u source =>
      rw [stateAfter, hs] at hseek
      refine .inr ⟨source, hseek, Source.head_of_seekTo hs, ?_⟩
      cases Source.readRange first past c.source with
      | ok bytes read => exact .inl ⟨bytes, read, rfl, rfl⟩
      | error e read => exact .inr ⟨e, read, rfl, rfl⟩

/-- An excerpt is a slice that starts at the current byte, as text on one line. -/
theorem excerpt_eq (width : Nat) (c : Cursor) :
    excerpt width c =
      match slice c.state.offset (c.state.offset + width) c with
      | .ok bytes c' => .ok (oneLine bytes) c'
      | .error e c' => .error e c' := by
  have hsave : (save : CursorM State) c = .ok c.state c := rfl
  simp only [excerpt, bind, EStateM.bind, hsave]
  cases slice c.state.offset (c.state.offset + width) c <;> rfl

/-- A diagnostic is placed where the cursor stands, and reads its excerpt for itself. -/
theorem diagnose_eq (code : ErrorCode) (message : String) (c : Cursor) :
    diagnose code message c =
      match excerpt c.options.excerptWidth c with
      | .ok quoted c' => .ok { code, message, location := c.location, excerpt := some quoted } c'
      | .error e c' => .error e c' := by
  have hget : (get : CursorM Cursor) c = .ok c c := rfl
  simp only [diagnose, bind, EStateM.bind, hget]
  cases excerpt c.options.excerptWidth c <;> rfl

/-- A walk takes a step for each byte that the input has. -/
theorem follow_cons (byte : UInt8) (rest : List UInt8) (c : Cursor) :
    follow (byte :: rest) c =
      if c.current = some byte then
        match advance c with
        | .ok _ c' => follow rest c'
        | .error e c' => .error e c'
      else .ok false c := by
  have hget : (get : CursorM Cursor) c = .ok c c := rfl
  simp only [follow, bind, EStateM.bind, hget]
  by_cases h : c.current = some byte
  · rw [if_pos h, if_pos h]
    simp only [EStateM.bind]
    cases advance c <;> rfl
  · rw [if_neg h, if_neg h]
    rfl

/-- A text that is not taken has only been looked for. -/
theorem acceptText_eq (text : String) (c : Cursor) :
    acceptText text c =
      match follow (Utf8.encode text) c with
      | .ok true c' => .ok true c'
      | _ => lookahead (follow (Utf8.encode text)) c := by
  have hsave : (save : CursorM State) c = .ok c.state c := rfl
  rw [lookahead_eq]
  rcases h : follow (Utf8.encode text) c with (_ | _) | _ <;>
    simp only [acceptText, bind, EStateM.bind, attempt, hsave, stateAfter, h]
  · cases restore c.state _ <;> rfl
  · rfl
  · cases restore c.state _ <;> rfl

theorem acceptOneOf_eq (set : String) (c : Cursor) :
    acceptOneOf set c =
      if c.atOneOf set then
        match advance c with
        | .ok _ c' => .ok true c'
        | .error e c' => .error e c'
      else .ok false c := by
  have hget : (get : CursorM Cursor) c = .ok c c := rfl
  simp only [acceptOneOf, bind, EStateM.bind, hget]
  by_cases h : c.atOneOf set = true
  · rw [if_pos h, if_pos h]
    simp only [EStateM.bind]
    cases advance c <;> rfl
  · rw [if_neg h, if_neg h]
    rfl

/-! ## Failing in either way -/

/-- A failure of the source is one of the whole computation. -/
theorem liftM_eq (x : CursorM α) (c : Cursor) :
    (liftM x : ParseM α) c =
      match x c with
      | .ok a c' => .ok a c'
      | .error e c' => .error (.source e) c' := by
  have hlift : (liftM x : ParseM α) = EStateM.adaptExcept Failure.source x := rfl
  rw [hlift, EStateM.adaptExcept]
  cases x c <;> rfl

theorem ok_of_liftM {x : CursorM α} {c c' : Cursor} {a : α}
    (h : (liftM x : ParseM α) c = .ok a c') : x c = .ok a c' := by
  rw [liftM_eq] at h
  split at h <;> cases h
  assumption

/-! ## Expressions -/

/-- What is left to do after an expression that has to be all the rest of the input. -/
def finish (e : Expr) : ParseM Expr := do
  match (← get).current with
  | some byte => report (.trailing byte)
  | none => return e

theorem finish_eq (e : Expr) (c : Cursor) :
    finish e c =
      match c.current with
      | some byte => report (.trailing byte) c
      | none => .ok e c := by
  have hget : (get : ParseM Cursor) c = .ok c c := rfl
  simp only [finish, bind, EStateM.bind, hget]
  cases c.current with
  | some byte => rfl
  | none => rfl

theorem parseToEnd_eq_bind : parseToEnd = parse .expr >>= finish := rfl

/-- Reading to the end is reading an expression, and finding nothing after it. -/
theorem parseToEnd_eq (c : Cursor) :
    parseToEnd c =
      match parse .expr c with
      | .ok e c' =>
        (match c'.current with
        | some byte => report (.trailing byte) c'
        | none => .ok e c')
      | .error e c' => .error e c' := by
  rw [parseToEnd_eq_bind]
  simp only [bind, EStateM.bind]
  cases parse .expr c with
  | ok e c' => exact finish_eq e c'
  | error e c' => rfl

/-- Where there is no expression, there is none to the end. -/
theorem parseToEnd_of_error {c c' : Cursor} {failure : Failure}
    (h : parse .expr c = .error failure c') : parseToEnd c = .error failure c' := by
  rw [parseToEnd_eq, h]

end Cursor

end SeekParse
