import SeekParse.Proofs.Outcome

/-!
# What every request keeps

There are many requests, and all of them are made of four things: a step, a return to a state, a
slice, and computation that leaves the cursor alone. So what those four keep, every request keeps.
`Upkeep` says what has to be known of the four, and `Upkeep.perform` draws the conclusion once for
all requests, for whatever it is that is kept.

Two things are left open, because different uses need them differently. A cursor may only be allowed
to go back to some states, which then have to be the ones that were saved. And some failures may
*lose* what was kept: after a seek that failed, nobody knows where the head is.
-/

namespace SeekParse

variable {ε α β : Type} {P : Cursor → Prop} {Lost : ε → Prop}

/-- `Keeps P Lost x`: wherever `P` holds before `x`, it holds after it too, unless `x` fails by a
failure that is `Lost`. -/
def Keeps (P : Cursor → Prop) (Lost : ε → Prop) (x : EStateM ε Cursor α) : Prop :=
  ∀ c, P c →
    match x c with
    | .ok _ c' => P c'
    | .error e c' => Lost e ∨ P c'

/-- The failures of a source that are `Lost`, among all failures. A mismatch loses nothing. -/
def Failure.OfSource (Lost : SourceError → Prop) : Failure → Prop
  | .mismatch _ => False
  | .source e => Lost e

namespace Keeps

theorem pure (a : α) : Keeps P Lost (pure a) := fun _ hc => hc

theorem throw (e : ε) : Keeps P Lost (throw e : EStateM ε Cursor α) := fun _ hc => .inr hc

theorem bind {x : EStateM ε Cursor α} {f : α → EStateM ε Cursor β} (hx : Keeps P Lost x)
    (hf : ∀ a, Keeps P Lost (f a)) : Keeps P Lost (x >>= f) := by
  intro c hc
  have h := hx c hc
  simp only [Bind.bind, EStateM.bind]
  cases hr : x c with
  | ok a c' =>
      rw [hr] at h
      exact hf a c' h
  | error e c' =>
      rw [hr] at h
      exact h

/-- What is read off the cursor may be anything that `P` leaves open. -/
theorem get_bind {f : Cursor → EStateM ε Cursor β} (hf : ∀ c, Keeps P Lost (f c)) :
    Keeps P Lost (get >>= f) :=
  fun c hc => hf c c hc

theorem mono {Lost' : ε → Prop} {x : EStateM ε Cursor α} (hx : Keeps P Lost x)
    (h : ∀ e, Lost e → Lost' e) : Keeps P Lost' x := by
  intro c hc
  have hxc := hx c hc
  cases hr : x c with
  | ok a c' =>
      rw [hr] at hxc
      exact hxc
  | error e c' =>
      rw [hr] at hxc
      exact hxc.imp_left (h e)

/-- What loses nothing keeps `P` whatever comes of it. -/
theorem stateAfter {x : EStateM ε Cursor α} (hx : Keeps P (fun _ => False) x) {c : Cursor}
    (hc : P c) : P (stateAfter x c) := by
  have h := hx c hc
  rw [SeekParse.stateAfter]
  cases hr : x c with
  | ok a c' =>
      rw [hr] at h
      exact h
  | error e c' =>
      rw [hr] at h
      exact h.resolve_left id

theorem lift {Lost : SourceError → Prop} {x : CursorM α} (hx : Keeps P Lost x) :
    Keeps P (Failure.OfSource Lost) (liftM x : ParseM α) := by
  intro c hc
  have h := hx c hc
  rw [Cursor.liftM_eq]
  cases hr : x c with
  | ok a c' =>
      rw [hr] at h
      exact h
  | error e c' =>
      rw [hr] at h
      exact h

end Keeps

/-! ## Where a literal started -/

/-- The state that a machine may still have to go back to is one of these. -/
def Machine.Saved (Allowed : Cursor.State → Prop) (m : Machine) : Prop :=
  ∀ start taken, m.phase = .digits start taken → Allowed start

/-- Wherever a step leads, the machine may go back to what it finds there. -/
def Step.Saved (Allowed : Cursor.State → Prop) : Step → Prop
  | .take next => next.Saved Allowed
  | .turn next => next.Saved Allowed
  | .accept _ => True
  | .reject _ site => ∀ start, site = some start → Allowed start

theorem Machine.saved_expecting {Allowed : Cursor.State → Prop} {frames : List Frame}
    {rule : Rule} : Machine.Saved Allowed ⟨frames, .expecting rule⟩ := by
  intro start taken hphase
  cases hphase

theorem Machine.saved_built {Allowed : Cursor.State → Prop} {frames : List Frame} {e : Expr} :
    Machine.Saved Allowed ⟨frames, .built e⟩ := by
  intro start taken hphase
  cases hphase

/-- A rejection that names no site asks for none. -/
theorem Step.saved_reject {Allowed : Cursor.State → Prop} {mismatch : Mismatch} :
    (Step.reject mismatch none).Saved Allowed := by
  intro start hsite
  cases hsite

/-- Only a machine inside a literal has a state to go back to, and a literal starts where the
machine stands. -/
theorem Machine.saved_step {Allowed : Cursor.State → Prop} {m : Machine} {s : Cursor.State}
    (hs : Allowed s) (hm : m.Saved Allowed) : (m.step s).Saved Allowed := by
  obtain ⟨frames, phase⟩ := m
  cases phase with
  | expecting rule =>
      cases rule with
      | expr => exact saved_expecting
      | unary =>
          simp only [step, expect]
          split
          · exact saved_expecting
          · exact saved_expecting
      | primary =>
          simp only [step, expect]
          split
          · exact Step.saved_reject
          · split
            · intro start taken hphase
              cases hphase
              exact hs
            · split
              · exact saved_expecting
              · exact Step.saved_reject
  | digits start taken =>
      have hstart : Allowed start := hm start taken rfl
      simp only [step, number]
      split
      · intro start' taken' hphase
        cases hphase
        exact hstart
      · split
        · exact saved_built
        · intro start' hsite
          cases hsite
          exact hstart
  | built e =>
      cases frames with
      | nil => trivial
      | cons frame frames =>
          cases frame with
          | applied op => exact saved_built
          | chain before =>
              simp only [step, deliver]
              split
              · exact saved_expecting
              · exact saved_built
          | group opened =>
              simp only [step, deliver]
              split
              · exact saved_built
              · exact Step.saved_reject

/-- What a request keeps, it keeps whatever the answer is. -/
theorem Request.keeps_answer {Lost : SourceError → Prop} {r : Request}
    (hkeep : Keeps P (Failure.OfSource Lost) r.perform) {c : Cursor} (hc : P c) :
    (∃ e, (r.answer c).1 = .error (.source e) ∧ Lost e) ∨ P (r.answer c).2 := by
  have hkept := hkeep c hc
  rw [answer]
  cases hp : r.perform c with
  | ok reply c' =>
      rw [hp] at hkept
      exact .inr hkept
  | error e c' =>
      rw [hp] at hkept
      rcases hkept with hlost | hkept
      · cases e with
        | mismatch d => exact hlost.elim
        | source e => exact .inl ⟨e, rfl, hlost⟩
      · exact .inr hkept

namespace Cursor

/-- What has to be known of the parts of a request. -/
structure Upkeep (Allowed : State → Prop) (P : Cursor → Prop) (Lost : SourceError → Prop) :
    Prop where
  /-- The live state is one to go back to. -/
  allowed {c : Cursor} : P c → Allowed c.state
  /-- A step keeps `P`, even one that fails. -/
  advance : Keeps P (fun _ => False) advance
  restore {s : State} : Allowed s → Keeps P Lost (restore s)
  slice (first past : Nat) : Keeps P Lost (slice first past)

namespace Upkeep

variable {Allowed : State → Prop} {P : Cursor → Prop} {Lost : SourceError → Prop}

theorem rewind (h : Upkeep Allowed P Lost) (h0 : Allowed .initial) : Keeps P Lost rewind :=
  (h.restore h0).bind fun _ => h.advance.mono nofun

theorem lookahead (h : Upkeep Allowed P Lost) {x : CursorM α}
    (hx : Keeps P (fun _ => False) x) : Keeps P Lost (lookahead x) := by
  intro c hc
  -- the way back is from wherever `x` has left the cursor, and it has lost nothing
  have hback := h.restore (h.allowed hc) _ (hx.stateAfter hc)
  rw [lookahead_eq]
  cases hr : Cursor.restore c.state (stateAfter x c) with
  | error e c' =>
      rw [hr] at hback
      exact hback
  | ok u c' =>
      rw [hr] at hback
      cases x c with
      | ok a _ => exact hback
      | error e _ => exact .inr hback

theorem peek (h : Upkeep Allowed P Lost) : Keeps P Lost peek :=
  h.lookahead (h.advance.bind fun _ => .get_bind fun _ => .pure _)

theorem excerpt (h : Upkeep Allowed P Lost) (width : Nat) : Keeps P Lost (excerpt width) :=
  .get_bind fun c => (h.slice c.state.offset (c.state.offset + width)).bind fun _ => .pure _

theorem diagnose (h : Upkeep Allowed P Lost) (code : ErrorCode) (message : String) :
    Keeps P Lost (diagnose code message) :=
  .get_bind fun c => (h.excerpt c.options.excerptWidth).bind fun _ => .pure _

/-! ## Lexemes -/

theorem follow (h : Upkeep Allowed P Lost) (bytes : List UInt8) :
    Keeps P (fun _ => False) (follow bytes) := by
  induction bytes with
  | nil => exact .pure _
  | cons byte rest ih =>
      refine .get_bind fun c => ?_
      split
      · exact h.advance.bind fun _ => ih
      · exact .pure _

theorem probeText (h : Upkeep Allowed P Lost) (text : String) : Keeps P Lost (probeText text) :=
  (h.lookahead (h.follow _)).bind fun _ => .pure _

theorem acceptText (h : Upkeep Allowed P Lost) (text : String) :
    Keeps P Lost (acceptText text) := by
  intro c hc
  have hwalk := h.follow (Utf8.encode text) c hc
  have hlook := h.lookahead (h.follow (Utf8.encode text)) c hc
  rw [acceptText_eq]
  rcases hr : Cursor.follow (Utf8.encode text) c with (_ | _) | _
  · exact hlook
  · rw [hr] at hwalk
    exact hwalk
  · exact hlook

theorem expectText (h : Upkeep Allowed P Lost) (text : String) :
    Keeps P (Failure.OfSource Lost) (expectText text) := by
  refine (h.acceptText text).lift.bind fun taken => ?_
  split
  · exact .pure _
  · exact .get_bind fun c => (h.excerpt _).lift.bind fun _ =>
      (h.diagnose _ _).lift.bind fun _ => .throw _

theorem acceptOneOf (h : Upkeep Allowed P Lost) (set : String) :
    Keeps P Lost (acceptOneOf set) := by
  refine .get_bind fun c => ?_
  split
  · exact (h.advance.mono nofun).bind fun _ => .pure _
  · exact .pure _

theorem expectOneOf (h : Upkeep Allowed P Lost) (set : String) (message : Option String) :
    Keeps P (Failure.OfSource Lost) (expectOneOf set message) := by
  refine (h.acceptOneOf set).lift.bind fun taken => ?_
  split
  · exact .pure _
  · exact .get_bind fun c => (h.excerpt _).lift.bind fun _ =>
      (h.diagnose _ _).lift.bind fun _ => .throw _

theorem takeWhile (h : Upkeep Allowed P Lost) (p : UInt8 → Bool) :
    Keeps P (fun _ => False) (takeWhile p) := by
  have hfrom : ∀ taken, Keeps P (fun _ => False) (takeWhileFrom p taken) := by
    intro taken c hc
    -- along the recursion: every call is made where a step has led
    fun_induction takeWhileFrom p taken c with
    | case1 taken c hcur => exact hc
    | case2 taken c byte hcur hp moved next hstep ih =>
        have hnext := h.advance c hc
        rw [hstep] at hnext
        exact ih hnext
    | case3 taken c byte hcur hp e next hstep =>
        have hnext := h.advance c hc
        rw [hstep] at hnext
        exact hnext
    | case4 taken c byte hcur hp => exact hc
  exact hfrom []

/-! ## Expressions -/

theorem report (h : Upkeep Allowed P Lost) (mismatch : Mismatch) :
    Keeps P (Failure.OfSource Lost) (report mismatch : ParseM α) :=
  (h.diagnose _ _).lift.bind fun _ => .throw _

theorem reportAt (h : Upkeep Allowed P Lost) (mismatch : Mismatch) {site : Option State}
    (hsite : ∀ start, site = some start → Allowed start) :
    Keeps P (Failure.OfSource Lost) (reportAt mismatch site : ParseM α) := by
  cases site with
  | none => exact h.report mismatch
  | some start => exact (h.restore (hsite start rfl)).lift.bind fun _ => h.report mismatch

theorem run (h : Upkeep Allowed P Lost) {m : Machine} (hm : m.Saved Allowed) :
    Keeps P (Failure.OfSource Lost) (run m) := by
  intro c hc
  -- a run may go back to where a literal started, so that has to be a state that is allowed
  fun_induction Cursor.run m c with
  | case1 m c e hstep => exact hc
  | case2 m c mismatch site hstep =>
      have hsaved := Machine.saved_step (h.allowed hc) hm
      rw [hstep] at hsaved
      exact h.reportAt mismatch hsaved c hc
  | case3 m c next hstep ih =>
      have hsaved := Machine.saved_step (h.allowed hc) hm
      rw [hstep] at hsaved
      exact ih hsaved hc
  | case4 m c next hstep moved c' hmove ih =>
      have hsaved := Machine.saved_step (h.allowed hc) hm
      rw [hstep] at hsaved
      have hnext := h.advance c hc
      rw [hmove] at hnext
      exact ih hsaved hnext
  | case5 m c next hstep e c' hmove =>
      have hnext := h.advance c hc
      rw [hmove] at hnext
      exact .inr (hnext.resolve_left id)

theorem parse (h : Upkeep Allowed P Lost) (rule : Rule) :
    Keeps P (Failure.OfSource Lost) (parse rule) :=
  h.run Machine.saved_expecting

theorem parseToEnd (h : Upkeep Allowed P Lost) :
    Keeps P (Failure.OfSource Lost) parseToEnd := by
  refine (h.parse .expr).bind fun e => .get_bind fun c => ?_
  split
  · exact h.report _
  · exact .pure _

/-! ## All requests -/

/-- What the parts of a request keep, the request keeps, if to rewind does. -/
theorem perform_of_rewind (h : Upkeep Allowed P Lost) (hrewind : Keeps P Lost Cursor.rewind)
    (r : Request) (hr : ∀ s, r = .restore s → Allowed s) :
    Keeps P (Failure.OfSource Lost) r.perform := by
  cases r with
  | advance => exact (h.advance.mono nofun).lift.bind fun _ => .pure _
  | rewind => exact hrewind.lift.bind fun _ => .pure _
  | peek => exact h.peek.lift.bind fun _ => .pure _
  | restore s => exact (h.restore (hr s rfl)).lift.bind fun _ => .pure _
  | slice first past => exact (h.slice first past).lift.bind fun _ => .pure _
  | between first last => exact (h.slice _ _).lift.bind fun _ => .pure _
  | excerpt width => exact (h.excerpt width).lift.bind fun _ => .pure _
  | diagnose code message => exact (h.diagnose code message).lift.bind fun _ => .pure _
  | probeText text => exact (h.probeText text).lift.bind fun _ => .pure _
  | acceptText text => exact (h.acceptText text).lift.bind fun _ => .pure _
  | expectText text => exact (h.expectText text).bind fun _ => .pure _
  | probeOneOf set => exact .get_bind fun _ => .pure _
  | acceptOneOf set => exact (h.acceptOneOf set).lift.bind fun _ => .pure _
  | expectOneOf set message => exact (h.expectOneOf set message).bind fun _ => .pure _
  | takeWhile p => exact ((h.takeWhile p).mono nofun).lift.bind fun _ => .pure _
  | parse rule => exact (h.parse rule).bind fun _ => .pure _
  | parseToEnd => exact h.parseToEnd.bind fun _ => .pure _

/-- **What the parts of a request keep, the request keeps**, as long as it does not go back to a
state that is not allowed. -/
theorem perform (h : Upkeep Allowed P Lost) (h0 : Allowed .initial) (r : Request)
    (hr : ∀ s, r = .restore s → Allowed s) :
    Keeps P (Failure.OfSource Lost) r.perform :=
  h.perform_of_rewind (h.rewind h0) r hr

/-- The same of the answer that a request gets. -/
theorem answer (h : Upkeep Allowed P Lost) (h0 : Allowed .initial) {r : Request}
    (hr : ∀ s, r = .restore s → Allowed s) {c : Cursor} (hc : P c) :
    (∃ e, (r.answer c).1 = .error (.source e) ∧ Lost e) ∨ P (r.answer c).2 :=
  Request.keeps_answer (h.perform h0 r hr) hc

end Upkeep

/-! ## What no request changes -/

/-- No request changes more than the head of the source, the state, and how many seeks are left. -/
theorem upkeep_alike (source : Source) (options : Options) :
    Upkeep (fun _ => True) (fun c => source.Alike c.source ∧ c.options = options)
      (fun _ => False) where
  allowed _ := trivial
  advance := by
    rintro c ⟨halike, hoptions⟩
    have hmoved : c.source.Alike { c.source with head := c.source.head + 1 } :=
      ⟨rfl, rfl, rfl, id⟩
    rcases advance_cases c with ⟨-, h⟩ | ⟨-, -, h⟩ | ⟨byte, -, -, h⟩ | ⟨-, -, h⟩
    · rw [h]
      exact ⟨halike, hoptions⟩
    · rw [h]
      exact .inr ⟨halike, hoptions⟩
    · rw [h]
      exact ⟨halike.trans hmoved, hoptions⟩
    · rw [h]
      exact ⟨halike, hoptions⟩
  restore {s} _ := by
    rintro c ⟨halike, hoptions⟩
    have hseek := halike.trans (Source.alike_seekTo s.position c.source)
    rw [restore_eq]
    cases hs : Source.seekTo s.position c.source with
    | ok u source' =>
        rw [stateAfter, hs] at hseek
        exact ⟨hseek, hoptions⟩
    | error e source' =>
        rw [stateAfter, hs] at hseek
        exact .inr ⟨hseek, hoptions⟩
  slice first past := by
    rintro c ⟨halike, hoptions⟩
    rcases Nat.lt_or_ge first past with hlt | hle
    · rcases slice_cases hlt c with
        ⟨cause, source', h, hback⟩ | ⟨source', hback, -, ⟨bytes, read, -, h⟩ | ⟨e, read, -, h⟩⟩
      · rw [h]
        exact .inr ⟨halike.trans hback, hoptions⟩
      · rw [h]
        exact ⟨halike.trans hback, hoptions⟩
      · rw [h]
        exact .inr ⟨halike.trans hback, hoptions⟩
    · rw [slice_of_le hle]
      exact ⟨halike, hoptions⟩

end Cursor

end SeekParse
