import SeekParse.Proofs.Steady

/-!
# Matching takes all, or nothing

The requests that look for something at the current byte walk into the input, and may stop at any
byte: because it differs, because there is none, or because a read fails. Then they go back. What
they leave behind is one of three things: the cursor has taken what was asked for, one step for
each byte; or it stands where it stood, in its state and with its head; or a seek has failed, and
that is the answer.

* `Cursor.Atomic` says this of an outcome, and leaves open where a cursor is that has taken
  something. `Cursor.steps` says where.
* `Cursor.matches_atomic`: both are so of every request that looks, and of two failures it is the
  failed seek that is reported.

It is the head that makes this worth proving. A walk moves it with each byte, and so does the
excerpt of a diagnostic; the state would be right again without any seek.
-/

namespace SeekParse

variable {ε α β : Type} {c c' : Cursor}

/-- Whether a read has failed. -/
def SourceError.IsRead : SourceError → Prop
  | .read .. => True
  | .unusable _ | .seek .. => False

namespace Source

theorem isRead_readUpTo {origin count : Nat} {taken : List UInt8} {e : SourceError}
    {src src' : Source} (h : readUpTo origin count taken src = .error e src') : e.IsRead := by
  induction count generalizing taken src with
  | zero => cases h
  | succ count ih =>
      simp only [readUpTo, readFrom, bind, EStateM.bind, EStateM.adaptExcept] at h
      rcases src.read_cases with ⟨-, hr⟩ | ⟨byte, -, hr⟩ | ⟨-, hr⟩
      · rw [hr] at h
        cases h
        trivial
      · rw [hr] at h
        exact ih h
      · rw [hr] at h
        cases h

/-- A range is not read because of a seek, or of a read. -/
theorem error_of_readRange {first past : Nat} {e : SourceError} {src src' : Source}
    (h : readRange first past src = .error e src') : e.IsSeek ∨ e.IsRead := by
  rw [readRange] at h
  by_cases hempty : past ≤ first
  · rw [if_pos hempty] at h
    cases h
  · rw [if_neg hempty] at h
    simp only [bind, EStateM.bind] at h
    cases hseek : seekTo first src with
    | ok u src₁ =>
        rw [hseek] at h
        exact .inr (isRead_readUpTo h)
    | error e' src₁ =>
        rw [hseek] at h
        cases h
        obtain ⟨cause, rfl⟩ := error_of_seekTo hseek
        exact .inl trivial

end Source

namespace Cursor

/-- A cursor in this state, with its head where the state has it. -/
structure Rests (s : State) (c : Cursor) : Prop where
  state : c.state = s
  head : c.source.head = s.position

/-- How an operation may fail that started where the cursor rested. Only a seek that has failed
leaves it anywhere else. -/
inductive FailsBack (s : State) : Failure → Cursor → Prop where
  | mismatch {d : Diagnostic} {c : Cursor} : Rests s c → FailsBack s (.mismatch d) c
  | read {e : SourceError} {c : Cursor} : e.IsRead → Rests s c → FailsBack s (.source e) c
  | seek {e : SourceError} {c : Cursor} : e.IsSeek → FailsBack s (.source e) c

/-- What may come of an operation that started where the cursor rested: its answer says that it took
what it was asked for, or the cursor still rests there. -/
def Atomic (asFailure : ε → Failure) (s : State) (Took : α → Prop) :
    EStateM.Result ε Cursor α → Prop
  | .ok a c => Took a ∨ Rests s c
  | .error e c => FailsBack s (asFailure e) c

/-- Nothing is ever taken. -/
def Nothing : α → Prop := fun _ => False

/-- `x` takes what it is asked for or leaves the cursor alone. -/
def Returns (asFailure : ε → Failure) (s : State) (Took : α → Prop) (x : EStateM ε Cursor α) :
    Prop :=
  ∀ c, Rests s c → Atomic asFailure s Took (x c)

variable {asFailure : ε → Failure} {s : State} {Took : α → Prop} {Took' : β → Prop}

theorem Atomic.of_nothing {outcome : EStateM.Result ε Cursor α}
    (h : Atomic asFailure s Nothing outcome) : Atomic asFailure s Took outcome := by
  cases outcome with
  | ok a c => exact .inr (h.resolve_left id)
  | error e c => exact h

namespace Returns

theorem pure (a : α) : Returns asFailure s Took (pure a) := fun _ hc => .inr hc

theorem throw {d : Diagnostic} :
    Returns id s Took (throw (.mismatch d) : ParseM α) := fun _ hc => .mismatch hc

/-- What comes after something was taken has nothing left to do. -/
theorem bind {x : EStateM ε Cursor α} {f : α → EStateM ε Cursor β}
    (hx : Returns asFailure s Took x) (hf : ∀ a, Returns asFailure s Took' (f a))
    (htook : ∀ a, Took a → ∃ b, f a = Pure.pure b ∧ Took' b) :
    Returns asFailure s Took' (x >>= f) := by
  intro c hc
  have h := hx c hc
  simp only [Bind.bind, EStateM.bind]
  cases hr : x c with
  | error e c' =>
      rw [hr] at h
      exact h
  | ok a c' =>
      rw [hr] at h
      rcases h with htaken | hrests
      · obtain ⟨b, hpure, hb⟩ := htook a htaken
        dsimp only
        rw [hpure]
        exact .inl hb
      · exact hf a c' hrests

theorem bind_nothing {x : EStateM ε Cursor α} {f : α → EStateM ε Cursor β}
    (hx : Returns asFailure s Nothing x) (hf : ∀ a, Returns asFailure s Took' (f a)) :
    Returns asFailure s Took' (x >>= f) :=
  hx.bind hf nofun

theorem get_bind {f : Cursor → EStateM ε Cursor β} (hf : ∀ c, Returns asFailure s Took' (f c)) :
    Returns asFailure s Took' (get >>= f) :=
  fun c hc => hf c c hc

theorem lift {x : CursorM α} (hx : Returns Failure.source s Took x) :
    Returns id s Took (liftM x : ParseM α) := by
  intro c hc
  have h := hx c hc
  rw [liftM_eq]
  cases hr : x c with
  | ok a c' =>
      rw [hr] at h
      exact h
  | error e c' =>
      rw [hr] at h
      exact h

end Returns

/-! ## Walks -/

/-- A step that fails has changed nothing. -/
theorem advance_error {e : SourceError} (h : advance c = .error e c') : e.IsRead ∧ c' = c := by
  rcases advance_cases c with ⟨-, hr⟩ | ⟨-, -, hr⟩ | ⟨byte, -, -, hr⟩ | ⟨-, -, hr⟩
  · rw [hr] at h
    cases h
  · rw [hr] at h
    cases h
    exact ⟨trivial, rfl⟩
  · rw [hr] at h
    cases h
  · rw [hr] at h
    cases h

theorem isRead_follow {bytes : List UInt8} {e : SourceError}
    (h : follow bytes c = .error e c') : e.IsRead := by
  induction bytes generalizing c with
  | nil => cases h
  | cons byte rest ih =>
      rw [follow_cons] at h
      by_cases hbyte : c.current = some byte
      · rw [if_pos hbyte] at h
        cases hstep : advance c with
        | ok moved c₁ =>
            rw [hstep] at h
            exact ih h
        | error e' c₁ =>
            rw [hstep] at h
            cases h
            exact (advance_error hstep).1
      · rw [if_neg hbyte] at h
        cases h

/-- The cursor after so many steps. A step at the end of the text changes nothing. -/
def steps (n : Nat) (c : Cursor) : Cursor :=
  (Request.answerAll (List.replicate n .advance) c).2

theorem steps_of_advance {moved : Bool} (h : advance c = .ok moved c') (n : Nat) :
    steps (n + 1) c = steps n c' := by
  have hstep : (Request.advance.answer c).2 = c' := by
    simp only [Request.answer, Request.perform, bind, EStateM.bind, liftM_eq, h]
    rfl
  rw [← hstep]
  rfl

/-- A walk that has found all its bytes has taken one step for each. -/
theorem steps_of_follow {bytes : List UInt8} (h : follow bytes c = .ok true c') :
    c' = steps bytes.length c := by
  induction bytes generalizing c with
  | nil =>
      cases h
      rfl
  | cons byte rest ih =>
      rw [follow_cons] at h
      by_cases hbyte : c.current = some byte
      · rw [if_pos hbyte] at h
        cases hstep : advance c with
        | ok moved c₁ =>
            rw [hstep] at h
            rw [List.length_cons, steps_of_advance hstep]
            exact ih h
        | error e c₁ =>
            rw [hstep] at h
            cases h
      · rw [if_neg hbyte] at h
        cases h

/-- A cursor that has gone back rests where it was sent. -/
theorem rests_restore (h : restore s c = .ok () c') : Rests s c' :=
  have hsteady : Steady c.source.bytes (· = s) c' := steady_restore rfl rfl h
  ⟨hsteady.state, hsteady.state ▸ hsteady.head⟩

/-! ## What goes back -/

/-- A lookahead goes back, wherever its walk has led and however it ended. -/
theorem returns_lookahead {x : CursorM α} (hx : ∀ c e c', x c = .error e c' → e.IsRead) :
    Returns Failure.source s (Nothing : α → Prop) (lookahead x) := by
  intro c hc
  have hs : c.state = s := hc.state
  rw [lookahead_eq, hs]
  cases hback : restore s (stateAfter x c) with
  | error e c' => exact .seek (isSeek_restore hback)
  | ok u c' =>
      cases hr : x c with
      | ok a c₁ => exact .inr (rests_restore hback)
      | error e c₁ => exact .read (hx c e c₁ hr) (rests_restore hback)

theorem returns_peek : Returns Failure.source s Nothing peek := by
  refine returns_lookahead fun c e c' h => ?_
  simp only [bind, EStateM.bind] at h
  cases hstep : advance c with
  | ok moved c₁ =>
      rw [hstep] at h
      cases h
  | error e' c₁ =>
      rw [hstep] at h
      cases h
      exact (advance_error hstep).1

theorem returns_slice (first past : Nat) :
    Returns Failure.source s Nothing (slice first past) := by
  intro c hc
  rcases Nat.lt_or_ge first past with hlt | hle
  · rcases slice_cases hlt c with
      ⟨cause, source, h, -⟩ | ⟨source, -, hhead, ⟨bytes, read, -, h⟩ | ⟨e, read, hread, h⟩⟩
    · rw [h]
      exact .seek trivial
    · rw [h]
      exact .inr ⟨hc.state, hc.state ▸ hhead⟩
    · rw [h]
      rcases Source.error_of_readRange hread with hisSeek | hisRead
      · exact .seek hisSeek
      · exact .read hisRead ⟨hc.state, hc.state ▸ hhead⟩
  · rw [slice_of_le hle]
    exact .inr hc

theorem returns_excerpt (width : Nat) : Returns Failure.source s Nothing (excerpt width) :=
  .get_bind fun _ => (returns_slice _ _).bind_nothing fun _ => .pure _

theorem returns_diagnose (code : ErrorCode) (message : String) :
    Returns Failure.source s Nothing (diagnose code message) :=
  .get_bind fun _ => (returns_excerpt _).bind_nothing fun _ => .pure _

/-! ## Texts -/

theorem returns_probeText (text : String) : Returns Failure.source s Nothing (probeText text) :=
  (returns_lookahead fun _ _ _ => isRead_follow).bind_nothing fun _ => .pure _

theorem returns_acceptText (text : String) :
    Returns Failure.source s (· = true) (acceptText text) := by
  intro c hc
  have hlook : Returns Failure.source s Nothing (lookahead (follow (Utf8.encode text))) :=
    returns_lookahead fun _ _ _ => isRead_follow
  have h := hlook c hc
  rw [acceptText_eq]
  rcases hr : follow (Utf8.encode text) c with (_ | _) | _
  · exact h.of_nothing
  · exact .inl rfl
  · exact h.of_nothing

/-- What is expected is taken, or it is reported that it is not there. -/
theorem ok_of_expect {x : CursorM Bool} {f : Bool → ParseM Unit} (htaken : f true = pure ())
    (hmissing : Fails (f false)) (h : (liftM x >>= f) c = .ok () c') : x c = .ok true c' := by
  obtain ⟨taken, c₁, hlift, hrest⟩ := ok_of_bind h
  cases taken with
  | false => exact absurd hrest (hmissing _ _ _)
  | true =>
      rw [htaken] at hrest
      cases hrest
      exact ok_of_liftM hlift

theorem steps_of_acceptText {text : String} (h : acceptText text c = .ok true c') :
    c' = steps text.utf8ByteSize c := by
  rw [acceptText_eq, lookahead_eq] at h
  rcases hr : follow (Utf8.encode text) c with (_ | _) | _
  · rw [hr] at h
    dsimp only at h
    split at h <;> cases h
  · rw [hr] at h
    cases h
    exact steps_of_follow hr
  · rw [hr] at h
    dsimp only at h
    split at h <;> cases h

theorem steps_of_expectText {text : String} (h : expectText text c = .ok () c') :
    c' = steps text.utf8ByteSize c :=
  steps_of_acceptText (ok_of_expect rfl (.bind fun _ => .bind fun _ => .bind fun _ => .throw _) h)

theorem returns_expectText (text : String) :
    Returns id s (fun _ => True) (expectText text) := by
  refine (returns_acceptText text).lift.bind (fun taken => ?_) ?_
  · split
    · exact .pure _
    · exact .get_bind fun _ => (returns_excerpt _).lift.bind_nothing fun _ =>
        (returns_diagnose _ _).lift.bind_nothing fun _ => .throw
  · rintro taken rfl
    exact ⟨(), rfl, trivial⟩

/-! ## Single bytes -/

/-- To take one byte needs no way back: a step that fails has taken nothing. -/
theorem acceptOneOf_cases (set : String) (c : Cursor) :
    (∃ c', acceptOneOf set c = .ok true c') ∨ acceptOneOf set c = .ok false c
      ∨ ∃ e, e.IsRead ∧ acceptOneOf set c = .error e c := by
  rw [acceptOneOf_eq]
  by_cases h : c.atOneOf set = true
  · rw [if_pos h]
    cases hstep : advance c with
    | ok moved c' => exact .inl ⟨c', rfl⟩
    | error e c' =>
        obtain ⟨hread, rfl⟩ := advance_error hstep
        exact .inr (.inr ⟨e, hread, rfl⟩)
  · rw [if_neg h]
    exact .inr (.inl rfl)

theorem steps_of_acceptOneOf {set : String} (h : acceptOneOf set c = .ok true c') :
    c' = steps 1 c := by
  rw [acceptOneOf_eq] at h
  by_cases hset : c.atOneOf set = true
  · rw [if_pos hset] at h
    cases hstep : advance c with
    | ok moved c₁ =>
        rw [hstep] at h
        cases h
        exact (steps_of_advance hstep 0).symm
    | error e c₁ =>
        rw [hstep] at h
        cases h
  · rw [if_neg hset] at h
    cases h

theorem steps_of_expectOneOf {set : String} {message : Option String}
    (h : expectOneOf set message c = .ok () c') : c' = steps 1 c :=
  steps_of_acceptOneOf (ok_of_expect rfl (.bind fun _ => .bind fun _ => .bind fun _ => .throw _) h)

theorem returns_acceptOneOf (set : String) :
    Returns Failure.source s (· = true) (acceptOneOf set) := by
  intro c hc
  rcases acceptOneOf_cases set c with ⟨c', h⟩ | h | ⟨e, hread, h⟩
  · rw [h]
    exact .inl rfl
  · rw [h]
    exact .inr hc
  · rw [h]
    exact .read hread hc

theorem returns_expectOneOf (set : String) (message : Option String) :
    Returns id s (fun _ => True) (expectOneOf set message) := by
  refine (returns_acceptOneOf set).lift.bind (fun taken => ?_) ?_
  · split
    · exact .pure _
    · exact .get_bind fun _ => (returns_excerpt _).lift.bind_nothing fun _ =>
        (returns_diagnose _ _).lift.bind_nothing fun _ => .throw
  · rintro taken rfl
    exact ⟨(), rfl, trivial⟩

/-! ## Which failure is reported -/

/-- A failure to go back hides the one that the walk ended with. -/
theorem lookahead_of_restore_error {x : CursorM α} {e e' : SourceError} {c₁ c₂ : Cursor}
    (hwalk : x c = .error e c₁) (hback : restore c.state c₁ = .error e' c₂) :
    lookahead x c = .error e' c₂ := by
  rw [lookahead_eq, stateAfter, hwalk]
  dsimp only
  rw [hback]

theorem peek_of_restore_error {e e' : SourceError} {c₁ c₂ : Cursor}
    (hstep : advance c = .error e c₁) (hback : restore c.state c₁ = .error e' c₂) :
    peek c = .error e' c₂ := by
  refine lookahead_of_restore_error (e := e) ?_ hback
  simp only [bind, EStateM.bind, hstep]

theorem probeText_of_restore_error {text : String} {e e' : SourceError} {c₁ c₂ : Cursor}
    (hwalk : follow (Utf8.encode text) c = .error e c₁)
    (hback : restore c.state c₁ = .error e' c₂) : probeText text c = .error e' c₂ := by
  simp only [probeText, bind, EStateM.bind, lookahead_of_restore_error hwalk hback]

theorem acceptText_of_restore_error {text : String} {e e' : SourceError} {c₁ c₂ : Cursor}
    (hwalk : follow (Utf8.encode text) c = .error e c₁)
    (hback : restore c.state c₁ = .error e' c₂) : acceptText text c = .error e' c₂ := by
  rw [acceptText_eq, hwalk]
  exact lookahead_of_restore_error hwalk hback

/-- A text is found exactly where it would be taken, if the way back from looking succeeds. -/
theorem probeText_iff_acceptText {text : String}
    (hback : restore c.state (stateAfter (follow (Utf8.encode text)) c) = .ok () c') :
    (∃ d, probeText text c = .ok (some text.utf8ByteSize) d)
      ↔ ∃ d, acceptText text c = .ok true d := by
  have hlook := lookahead_eq (follow (Utf8.encode text)) c
  rw [hback] at hlook
  rw [acceptText_eq]
  simp only [probeText, bind, EStateM.bind]
  rcases hr : follow (Utf8.encode text) c with (_ | _) | _
  · rw [hr] at hlook
    rw [hlook]
    constructor
    · rintro ⟨d, h⟩
      cases h
    · rintro ⟨d, h⟩
      cases h
  · rw [hr] at hlook
    rw [hlook]
    exact ⟨fun _ => ⟨_, rfl⟩, fun _ => ⟨_, rfl⟩⟩
  · rw [hr] at hlook
    rw [hlook]
    constructor
    · rintro ⟨d, h⟩
      cases h
    · rintro ⟨d, h⟩
      cases h

/--
**Probes are pure, and matches take all or nothing.**

Whatever a cursor that rests where its state has it is asked to look for, and however its source
fails: it says that it has taken what was asked for, or it still rests there, unless a seek has
failed. If it says so, it has taken one step for each byte of it. To take one byte needs no way
back, so nothing can be lost by that at all.

Where both the walk and the way back fail, it is the way back that is reported. And a probe finds a
text exactly where it could be taken, if it comes back.
-/
theorem matches_atomic (hc : c.source.head = c.state.position) (text set : String)
    (message : Option String) :
    (Atomic .source c.state Nothing (peek c)
        ∧ Atomic .source c.state Nothing (probeText text c)
        ∧ Atomic .source c.state (· = true) (acceptText text c)
        ∧ Atomic id c.state (fun _ => True) (expectText text c)
        ∧ Atomic .source c.state (· = true) (acceptOneOf set c)
        ∧ Atomic id c.state (fun _ => True) (expectOneOf set message c))
      ∧ ((∀ c', acceptText text c = .ok true c' → c' = steps text.utf8ByteSize c)
        ∧ (∀ c', expectText text c = .ok () c' → c' = steps text.utf8ByteSize c)
        ∧ (∀ c', acceptOneOf set c = .ok true c' → c' = steps 1 c)
        ∧ ∀ c', expectOneOf set message c = .ok () c' → c' = steps 1 c)
      ∧ (∀ e c', acceptOneOf set c = .error e c' → Rests c.state c')
      ∧ (∀ e c₁ e' c₂, advance c = .error e c₁ → restore c.state c₁ = .error e' c₂ →
          e.IsRead ∧ e'.IsSeek ∧ peek c = .error e' c₂)
      ∧ (∀ e c₁ e' c₂, follow (Utf8.encode text) c = .error e c₁ →
          restore c.state c₁ = .error e' c₂ →
          e.IsRead ∧ e'.IsSeek ∧ probeText text c = .error e' c₂ ∧ acceptText text c = .error e' c₂)
      ∧ ∀ c', restore c.state (stateAfter (follow (Utf8.encode text)) c) = .ok () c' →
          ((∃ d, probeText text c = .ok (some text.utf8ByteSize) d)
            ↔ ∃ d, acceptText text c = .ok true d) := by
  have hrests : Rests c.state c := ⟨rfl, hc⟩
  refine ⟨⟨returns_peek c hrests, returns_probeText text c hrests, returns_acceptText text c hrests,
    returns_expectText text c hrests, returns_acceptOneOf set c hrests,
    returns_expectOneOf set message c hrests⟩, ⟨fun _ => steps_of_acceptText,
    fun _ => steps_of_expectText, fun _ => steps_of_acceptOneOf, fun _ => steps_of_expectOneOf⟩,
    ?_, ?_, ?_, ?_⟩
  · intro e c' h
    rcases acceptOneOf_cases set c with ⟨c₁, hr⟩ | hr | ⟨e', -, hr⟩
    · rw [hr] at h
      cases h
    · rw [hr] at h
      cases h
    · rw [hr] at h
      cases h
      exact hrests
  · intro e c₁ e' c₂ hstep hback
    exact ⟨(advance_error hstep).1, isSeek_restore hback, peek_of_restore_error hstep hback⟩
  · intro e c₁ e' c₂ hwalk hback
    exact ⟨isRead_follow hwalk, isSeek_restore hback, probeText_of_restore_error hwalk hback,
      acceptText_of_restore_error hwalk hback⟩
  · intro c' hback
    exact probeText_iff_acceptText hback

/-- The third byte cannot be read, so `abc` is neither there nor not there. The cursor is back on
the first byte all the same. One step further is all that it can go, with `a`. -/
theorem matches_atomic_unreadable :
    ∃ c c' c'', ofSource { contents := #[0x61, 0x62, 0x63], faults := { unreadableFrom := some 2 } }
        {} = .ok c
      ∧ acceptText "abc" c = .error (.read 2 .deviceLost) c'
      ∧ c'.state = c.state ∧ c'.source.head = c.state.position
      ∧ acceptText "a" c = .ok true c'' ∧ c'' = steps 1 c := by
  obtain ⟨c, hc⟩ : ∃ c : Cursor, c =
      { source :=
          { contents := #[0x61, 0x62, 0x63], head := 1, faults := { unreadableFrom := some 2 } }
        state := { position := 1, line := 1, column := 1, focus := .on 0x61 } } := ⟨_, rfl⟩
  have hhead : c.source.head = c.state.position := by rw [hc]
  obtain ⟨⟨-, -, htext, -⟩, -⟩ := matches_atomic hhead "abc" "" none
  obtain ⟨-, ⟨htaken, -⟩, -⟩ := matches_atomic hhead "a" "" none
  subst hc
  refine ⟨_, _, _, rfl, rfl, ?_, ?_, rfl, htaken _ rfl⟩
  · cases htext with
    | read _ hrests => exact hrests.state
    | seek hseek => exact hseek.elim
  · cases htext with
    | read _ hrests => exact hrests.head
    | seek hseek => exact hseek.elim

end Cursor

end SeekParse
