import SeekParse.Proofs.Needs
import SeekParse.Proofs.Upkeep
import SeekParse.Proofs.Memory

/-!
# The seeks of every request

What each operation of a cursor needs (`Needs`), from a single seek of the source to a whole parse,
and from that the table of all requests, `Request.seeks`. The table counts seeks, and rests on
something that has nothing to do with counting: no operation goes on from a failure of the source as
if the input were another. Both are shown of each operation at once, because where an operation
fails decides what it has spent.

* `Cursor.needs_run`: until a machine stops, it only advances. So a parse that succeeds takes no
  seek, and one that fails takes those of its report.
* `Request.needs_perform`: the same of all requests, by the table.
-/

namespace SeekParse

variable {ε α β : Type} {c c' c₁ : Cursor} {m n : Nat}

namespace Source

theorem not_readFails {s : Source} (hs : s.faults.unreadableFrom = none) :
    ¬ s.readFails = true := by
  rw [readFails, hs]
  exact Bool.false_ne_true

/-- A read that does not fail finds what it would have found on a source that never fails. -/
theorem read_under {s : Source} (hs : s.faults = {}) (faults : Faults) :
    (faults.unreadableFrom ≠ none
        ∧ read { s with faults } = .error .deviceLost { s with faults })
      ∨ (∃ byte, read s = .ok (some byte) { s with head := s.head + 1 }
          ∧ read { s with faults } = .ok (some byte) { s with head := s.head + 1, faults })
      ∨ (read s = .ok none s ∧ read { s with faults } = .ok none { s with faults }) := by
  have hsound : ¬ s.readFails = true := not_readFails (by rw [hs])
  rcases read_cases { s with faults } with ⟨hf, hr⟩ | ⟨byte, hb, hr⟩ | ⟨hb, hr⟩
  · exact .inl ⟨fun hnone => not_readFails hnone hf, hr⟩
  · rcases read_cases s with ⟨hf, -⟩ | ⟨byte', hb', hr'⟩ | ⟨hb', -⟩
    · exact absurd hf hsound
    · rw [hb'] at hb
      cases hb
      exact .inr (.inl ⟨byte, hr', hr⟩)
    · rw [hb'] at hb
      cases hb
  · rcases read_cases s with ⟨hf, -⟩ | ⟨byte', hb', -⟩ | ⟨-, hr'⟩
    · exact absurd hf hsound
    · rw [hb'] at hb
      cases hb
    · exact .inr (.inr ⟨hr', hr⟩)

end Source

/-- A literal is blamed at its start, and nothing else is blamed anywhere but where it is found. -/
theorem Machine.site_of_reject {m : Machine} {s : Cursor.State} {mismatch : Mismatch}
    {site : Option Cursor.State} (h : m.step s = .reject mismatch site) :
    (site = none ∧ mismatch.code ≠ .literalTooLarge)
      ∨ ∃ start, site = some start ∧ mismatch.code = .literalTooLarge := by
  obtain ⟨frames, phase⟩ := m
  cases phase with
  | expecting rule =>
      cases rule with
      | expr => cases h
      | unary =>
          simp only [step, expect] at h
          split at h <;> cases h
      | primary =>
          simp only [step, expect] at h
          repeat' split at h
          all_goals cases h
          · exact .inl ⟨rfl, fun hcode => by cases hcode⟩
          · exact .inl ⟨rfl, fun hcode => by cases hcode⟩
  | digits start taken =>
      simp only [step, number] at h
      split at h
      · cases h
      · split at h <;> cases h
        exact .inr ⟨start, rfl, rfl⟩
  | built e =>
      cases frames with
      | nil => cases h
      | cons frame frames =>
          cases frame <;> simp only [step, deliver] at h <;>
            (try split at h) <;> cases h
          exact .inl ⟨rfl, fun hcode => by cases hcode⟩

namespace Cursor

/-! ## The source -/

theorem onSource_bind (x : SourceM α) (f : α → SourceM β) :
    onSource (x >>= f) = onSource x >>= fun a => onSource (f a) := by
  funext c
  simp only [onSource, bind, EStateM.bind]
  cases x c.source <;> rfl

/-- A seek is granted if there is one left, and ends where it should if nothing else is wrong. -/
theorem needs_seekTo (hc : c.source.faults = {}) (offset : Nat) :
    Needs id (onSource (Source.seekTo offset)) c 1 := by
  have hsound : onSource (Source.seekTo offset) c
      = .ok () { c with source := { c.source with head := offset } } := by
    have hlanding : c.source.landing offset = offset := by rw [Source.landing, hc]
    have hgranted : c.source.granted = c.source := by
      rw [Source.granted, hc]
      show { c.source with faults := {} } = c.source
      rw [← hc]
    simp only [onSource, Source.seekTo_eq, if_pos hlanding, hgranted]
    have hgrants : ¬ c.source.faults.seeksLeft = some 0 := by
      rw [hc]
      intro hnone
      cases hnone
    rw [if_neg hgrants]
  refine ⟨Needs.answers_of_ok hsound, fun faults => ?_⟩
  rw [hsound]
  simp only [onSource, Source.seekTo_eq]
  by_cases h0 : faults.seeksLeft = some 0
  · rw [if_pos (show (c.under faults).source.faults.seeksLeft = some 0 from h0)]
    refine .inr ⟨_, _, rfl, fun honly => ⟨fun hafford => ?_, ⟨offset, rfl⟩, ?_⟩⟩
    · exact absurd (hafford 0 h0) (by decide)
    · show faults = _
      obtain ⟨unreadableFrom, seeksLeft, seekLimit⟩ := faults
      obtain ⟨rfl, rfl⟩ := honly
      rw [show seeksLeft = some 0 from h0]
  · rw [if_neg (show ¬ (c.under faults).source.faults.seeksLeft = some 0 from h0)]
    by_cases hlanding : (c.under faults).source.landing offset = offset
    · rw [if_pos hlanding]
      refine .inl ⟨fun left hleft => ?_, rfl⟩
      rcases Nat.eq_zero_or_pos left with rfl | hpos
      · exact absurd hleft h0
      · exact hpos
    · rw [if_neg hlanding]
      refine .inr ⟨_, _, rfl, fun honly => absurd ?_ hlanding⟩
      show Source.landing _ _ = _
      rw [Source.landing, show (c.under faults).source.faults.seekLimit = none from honly.seekLimit]

theorem needs_readFrom (hc : c.source.faults = {}) (origin : Nat) :
    Needs id (onSource (Source.readFrom origin)) c 0 := by
  have hread : ∀ d : Cursor, onSource (Source.readFrom origin) d =
      match d.source.read with
      | .ok found source => .ok found { d with source }
      | .error fault source => .error (.read origin fault) { d with source } := by
    intro d
    simp only [onSource, Source.readFrom, EStateM.adaptExcept]
    cases d.source.read <;> rfl
  refine ⟨?_, fun faults => ?_⟩
  · intro e c' h
    rw [hread] at h
    rcases Source.read_under hc {} with ⟨hlost, -⟩ | ⟨byte, hr, -⟩ | ⟨hr, -⟩
    · exact hlost rfl
    · rw [hr] at h
      cases h
    · rw [hr] at h
      cases h
  · rw [hread, hread, faults.spend_zero]
    have hunder : (c.under faults).source = { c.source with faults } := rfl
    rw [hunder]
    rcases Source.read_under hc faults with ⟨hlost, hr⟩ | ⟨byte, hr, hr'⟩ | ⟨hr, hr'⟩
    · rw [hr]
      exact .inr ⟨_, _, rfl, fun honly => absurd honly.unreadableFrom hlost⟩
    · rw [hr, hr']
      exact .inl ⟨faults.affords_zero, rfl⟩
    · rw [hr, hr']
      exact .inl ⟨faults.affords_zero, rfl⟩

theorem needs_readUpTo (origin count : Nat) (taken : List UInt8) {c : Cursor}
    (hc : c.source.faults = {}) :
    Needs id (onSource (Source.readUpTo origin count taken)) c 0 := by
  induction count generalizing taken c with
  | zero => exact .pure _
  | succ count ih =>
      rw [Source.readUpTo, onSource_bind]
      refine (needs_readFrom hc origin).after_free hc ?_
      intro found c' _ hc'
      cases found with
      | none => exact .pure _
      | some byte => exact ih (byte :: taken) hc'

theorem needs_readRange {first past : Nat} (h : first < past) (hc : c.source.faults = {}) :
    Needs id (onSource (Source.readRange first past)) c 1 := by
  rw [Source.readRange, if_neg (Nat.not_le.2 h), onSource_bind]
  exact (needs_seekTo hc first).then_free hc fun _ _ _ hc' => needs_readUpTo _ _ _ hc'

/-! ## Moving and looking -/

theorem needs_advance (hc : c.source.faults = {}) : Needs id advance c 0 := by
  by_cases hactive : c.state.isActive = true
  · -- a step of an active cursor is a read, and what the state makes of it
    have hstep : Needs id (onSource (Source.readFrom c.state.position) >>= fun found d =>
        .ok found.isSome { d with state := found.elim c.state.atEnd c.state.next }) c 0 :=
      (needs_readFrom hc c.state.position).after_free hc fun _ _ _ _ =>
        .blind (Needs.answers_of_ok rfl) fun _ => rfl
    refine hstep.congr fun d hstate _ => ?_
    simp only [advance, bind, EStateM.bind, onSource, Source.readFrom, EStateM.adaptExcept, hstate,
      if_pos hactive]
    rcases d.source.read_cases with ⟨-, hr⟩ | ⟨byte, -, hr⟩ | ⟨-, hr⟩
    · rw [hr]
    · rw [hr]
      rfl
    · rw [hr]
      rfl
  · have hstay : ∀ d : Cursor, d.state = c.state → advance d = .ok false d := by
      intro d hstate
      rw [advance, hstate, if_neg hactive]
    refine .blind (Needs.answers_of_ok (hstay c rfl)) fun faults => ?_
    rw [hstay c rfl, hstay (c.under faults) rfl]
    rfl

theorem needs_restore (hc : c.source.faults = {}) (s : State) : Needs id (restore s) c 1 :=
  (needs_seekTo hc s.position).then_free hc fun _ _ _ _ =>
    .blind (Needs.answers_of_ok rfl) fun _ => rfl

theorem needs_rewind (hc : c.source.faults = {}) : Needs id rewind c 1 :=
  (needs_restore hc .initial).then_free hc fun _ _ _ hc' => needs_advance hc'

theorem needs_lookahead {x : CursorM α} (hc : c.source.faults = {}) (hx : Needs id x c 0) :
    Needs id (lookahead x) c 1 :=
  .get_bind (fun _ => rfl) (hx.thenBack hc fun _ hd => needs_restore hd c.state)

theorem needs_peek (hc : c.source.faults = {}) : Needs id peek c 1 := by
  refine needs_lookahead hc ((needs_advance hc).after_free hc fun _ c' _ hc' => ?_)
  exact .get_bind (fun _ => rfl) (.pure _)

theorem needs_slice (hc : c.source.faults = {}) (first past : Nat) :
    Needs id (slice first past) c (if first < past then 2 else 0) := by
  by_cases h : first < past
  · rw [slice, if_neg (Nat.not_le.2 h), if_pos h]
    exact .get_bind (fun _ => rfl)
      ((needs_readRange h hc).thenBack hc fun _ hd => needs_seekTo hd c.state.position)
  · rw [slice, if_pos (Nat.not_lt.1 h), if_neg h]
    exact .pure _

/-- The seeks that an excerpt takes: none if nothing is to be quoted, else one there and one
back. -/
def excerptSeeks (width : Nat) : Nat := if 0 < width then 2 else 0

theorem needs_excerpt (hc : c.source.faults = {}) (width : Nat) :
    Needs id (excerpt width) c (excerptSeeks width) := by
  have hslice := needs_slice hc c.state.offset (c.state.offset + width)
  simp only [Nat.lt_add_right_iff_pos] at hslice
  exact .get_bind (fun _ => rfl) (hslice.then_free hc fun _ _ _ _ => .pure _)

theorem needs_diagnose (hc : c.source.faults = {}) (code : ErrorCode) (message : String) :
    Needs id (diagnose code message) c (excerptSeeks c.options.excerptWidth) := by
  refine .get_bind (fun _ => rfl) ((needs_excerpt hc c.options.excerptWidth).then_free hc ?_)
  exact fun _ _ _ _ => .pure _

/-! ## Lexemes -/

theorem needs_follow (bytes : List UInt8) {c : Cursor} (hc : c.source.faults = {}) :
    Needs id (follow bytes) c 0 := by
  induction bytes generalizing c with
  | nil => exact .pure _
  | cons byte rest ih =>
      refine .get_bind (fun _ => rfl) ?_
      by_cases h : c.current = some byte
      · rw [if_pos h]
        exact (needs_advance hc).after_free hc fun _ _ _ hc' => ih hc'
      · rw [if_neg h]
        exact .pure _

theorem needs_probeText (hc : c.source.faults = {}) (text : String) :
    Needs id (probeText text) c 1 :=
  (needs_lookahead hc (needs_follow _ hc)).then_free hc fun _ _ _ _ => .pure _

theorem needs_acceptOneOf (hc : c.source.faults = {}) (set : String) :
    Needs id (acceptOneOf set) c 0 := by
  refine .get_bind (fun _ => rfl) ?_
  by_cases h : c.atOneOf set = true
  · rw [if_pos h]
    exact (needs_advance hc).after_free hc fun _ _ _ _ => .pure _
  · rw [if_neg h]
    exact .pure _

/-- It is the state alone that says whether a run goes on. -/
theorem takeWhileFrom_of_state {d : Cursor} (hstate : d.state = c.state) (p : UInt8 → Bool)
    (taken : List UInt8) :
    takeWhileFrom p taken d =
      match c.current.filter p with
      | none => .ok taken.reverse d
      | some byte =>
        match advance d with
        | .ok _ next => takeWhileFrom p (byte :: taken) next
        | .error e next => .error e next := by
  have hcurrent : d.current = c.current := by
    rw [current, hstate, current]
  rw [← hcurrent]
  exact takeWhileFrom_eq p taken d

theorem needs_takeWhileFrom (p : UInt8 → Bool) (taken : List UInt8) (hc : c.source.faults = {}) :
    Needs id (takeWhileFrom p taken) c 0 := by
  fun_induction takeWhileFrom p taken c with
  | case1 taken c hcur =>
      refine (Needs.pure taken.reverse).congr fun d hstate _ => ?_
      rw [takeWhileFrom_of_state hstate, hcur]
      rfl
  | case2 taken c byte hcur hp moved next hstep ih =>
      have hrest : Needs id (advance >>= fun _ => takeWhileFrom p (byte :: taken)) c 0 := by
        refine (needs_advance hc).after_free hc fun moved' c' hmove hc' => ?_
        rw [hstep] at hmove
        cases hmove
        exact ih hc'
      refine hrest.congr fun d hstate _ => ?_
      rw [takeWhileFrom_of_state hstate, hcur, Option.filter_some, if_pos hp]
      simp only [bind, EStateM.bind]
      cases advance d <;> rfl
  | case3 taken c byte hcur hp e next hstep =>
      exact absurd hstep ((needs_advance hc).answers e next)
  | case4 taken c byte hcur hp =>
      refine (Needs.pure taken.reverse).congr fun d hstate _ => ?_
      rw [takeWhileFrom_of_state hstate, hcur, Option.filter_some, if_neg hp]
      rfl

theorem needs_takeWhile (p : UInt8 → Bool) (hc : c.source.faults = {}) :
    Needs id (takeWhile p) c 0 :=
  needs_takeWhileFrom p [] hc

/-- A text is taken by the walk that finds it. -/
theorem needs_acceptText_found (hc : c.source.faults = {}) {text : String}
    (hfollow : follow (Utf8.encode text) c = .ok true c') :
    acceptText text c = .ok true c' ∧ Needs id (acceptText text) c 0 := by
  have haccept : acceptText text c = .ok true c' := by
    rw [acceptText_eq, hfollow]
  refine ⟨haccept, ⟨Needs.answers_of_ok haccept, fun faults => ?_⟩⟩
  rw [haccept, acceptText_eq]
  rcases (needs_follow _ hc).agrees faults with ⟨hafford, hagree⟩ | ⟨e, d, hfail, hwhy⟩
  · rw [hagree, hfollow]
    exact .inl ⟨hafford, rfl⟩
  · -- the walk takes no seek, so it cannot have failed for want of one
    have hnot : ¬ faults.OnlySeeks := fun honly => (hwhy honly).1 faults.affords_zero
    rw [hfail]
    dsimp only
    rw [lookahead_eq, stateAfter, hfail]
    dsimp only
    cases hback : restore (c.under faults).state d with
    | error e' d' => exact .inr ⟨e', d', rfl, fun honly => absurd honly hnot⟩
    | ok u d' => exact .inr ⟨e, d', rfl, fun honly => absurd honly hnot⟩

/-- A text that is not there has only been looked for, with faults and without. -/
theorem needs_acceptText_missing (hc : c.source.faults = {}) {text : String}
    (hfollow : follow (Utf8.encode text) c = .ok false c₁) :
    (∃ c', acceptText text c = .ok false c') ∧ Needs id (acceptText text) c 1 := by
  have hwalk := needs_follow (Utf8.encode text) hc
  have hlook := needs_lookahead hc hwalk
  have hsame : ∀ faults, acceptText text (c.under faults)
      = lookahead (follow (Utf8.encode text)) (c.under faults) := by
    intro faults
    rw [acceptText_eq]
    rcases hwalk.agrees faults with ⟨-, hagree⟩ | ⟨e, d, hfail, -⟩
    · rw [hagree, hfollow]
      rfl
    · rw [hfail]
  have haccept := hsame {}
  rw [under_of_sound hc] at haccept
  refine ⟨?_, ⟨by rw [haccept]; exact hlook.answers, fun faults => ?_⟩⟩
  · -- going back succeeds, and the answer is that of the walk
    obtain ⟨found, c', hfound, -⟩ := hlook.exists_ok hc
    rw [haccept, hfound]
    rw [lookahead_eq, hfollow] at hfound
    cases hback : restore c.state (stateAfter (follow (Utf8.encode text)) c) with
    | error e d =>
        rw [hback] at hfound
        cases hfound
    | ok u d =>
        rw [hback] at hfound
        cases hfound
        exact ⟨c', rfl⟩
  · rw [hsame, haccept]
    exact hlook.agrees faults

/-- A text is taken at no cost; one that is not there takes a seek to go back. -/
theorem needs_acceptText (hc : c.source.faults = {}) (text : String) :
    ∃ taken c', acceptText text c = .ok taken c'
      ∧ Needs id (acceptText text) c (if taken then 0 else 1) := by
  obtain ⟨found, c₁, hfollow, -⟩ := (needs_follow (Utf8.encode text) hc).exists_ok hc
  cases found with
  | true =>
      obtain ⟨haccept, hneeds⟩ := needs_acceptText_found hc hfollow
      exact ⟨true, c₁, haccept, hneeds⟩
  | false =>
      obtain ⟨⟨c', haccept⟩, hneeds⟩ := needs_acceptText_missing hc hfollow
      exact ⟨false, c', haccept, hneeds⟩

/-! ## Mismatches -/

/-- What succeeds and keeps what every request keeps leaves the options as they are. -/
theorem options_of_ok {Lost : ε → Prop} {x : EStateM ε Cursor α} {a : α}
    (hx : Keeps (fun d => c.source.Alike d.source ∧ d.options = c.options) Lost x)
    (h : x c = .ok a c') : c'.options = c.options := by
  have hkept := hx c ⟨.refl _, rfl⟩
  rw [h] at hkept
  exact hkept.2

theorem code_of_diagnose {code : ErrorCode} {message : String} {d : Diagnostic}
    (h : diagnose code message c = .ok d c') : d.code = code := by
  rw [diagnose_eq] at h
  cases hquoted : excerpt c.options.excerptWidth c with
  | ok quoted c₁ =>
      rw [hquoted] at h
      cases h
      rfl
  | error e c₁ =>
      rw [hquoted] at h
      cases h

/-- `x` finds a mismatch of this kind, after this many seeks. -/
structure Complains (code : ErrorCode) (x : ParseM α) (c : Cursor) (seeks : Nat) : Prop where
  fails : ∃ d c', x c = .error (.mismatch d) c' ∧ d.code = code
  needs : Needs Failure.source x c seeks

theorem Complains.throw {d : Diagnostic} :
    Complains d.code (throw (.mismatch d) : ParseM α) c 0 :=
  ⟨⟨d, c, rfl, rfl⟩, .throw nofun⟩

theorem Complains.after {code : ErrorCode} {x : CursorM β} {f : β → ParseM α}
    {b : β} (hx : Needs id x c m) (h : x c = .ok b c') (hf : Complains code (f b) c' n) :
    Complains code (liftM x >>= f) c (m + n) := by
  obtain ⟨d, c'', hfails, hcode⟩ := hf.fails
  refine ⟨⟨d, c'', ?_, hcode⟩, hx.lift_bind_of_ok h hf.needs⟩
  simp only [bind, EStateM.bind, liftM_eq, h, hfails]

theorem Complains.get_bind {code : ErrorCode} {f : Cursor → ParseM α}
    (hf : ∀ faults, f (c.under faults) = f c) (h : Complains code (f c) c n) :
    Complains code (get >>= f) c n :=
  ⟨h.fails, .get_bind hf h.needs⟩

/-- A diagnosis that is thrown takes the seeks of its excerpt. -/
theorem complains_diagnose (hc : c.source.faults = {}) (code : ErrorCode) (message : String)
    (finish : Diagnostic → Diagnostic) (hfinish : ∀ d, (finish d).code = d.code) :
    Complains code (do
      let d ← diagnose code message
      throw (.mismatch (finish d)) : ParseM α) c (excerptSeeks c.options.excerptWidth) := by
  have hneeds := needs_diagnose hc code message
  obtain ⟨d, c₁, hd, -⟩ := hneeds.exists_ok hc
  have hthrown : Complains code (throw (.mismatch (finish d)) : ParseM α) c₁ 0 := by
    rw [← code_of_diagnose hd, ← hfinish d]
    exact .throw
  exact .after (n := 0) hneeds hd hthrown

/-- The same, after an excerpt that the message tells of. -/
theorem complains_found (hc : c.source.faults = {}) (code : ErrorCode) (width : Nat)
    (message : String → String) (finish : String → Diagnostic → Diagnostic)
    (hfinish : ∀ found d, (finish found d).code = d.code) :
    Complains code (do
      let found ← excerpt width
      let d ← diagnose code (message found)
      throw (.mismatch (finish found d)) : ParseM α) c
      (excerptSeeks width + excerptSeeks c.options.excerptWidth) := by
  have hneeds := needs_excerpt hc width
  obtain ⟨found, c₁, hfound, hc₁⟩ := hneeds.exists_ok hc
  rw [← options_of_ok ((upkeep_alike _ _).excerpt width) hfound]
  exact .after hneeds hfound
    (complains_diagnose hc₁ code (message found) (finish found) (hfinish found))

/-- A text that is expected and not there takes the seek to go back, and those of two excerpts. -/
theorem needs_expectText (hc : c.source.faults = {}) (text : String) :
    ((∃ c', expectText text c = .ok () c') ∧ Needs Failure.source (expectText text) c 0)
      ∨ Complains .unexpectedCharacter (expectText text) c
          (1 + (excerptSeeks (text.utf8ByteSize + c.options.excerptWidth)
            + excerptSeeks c.options.excerptWidth)) := by
  obtain ⟨taken, c₁, htaken, hneeds⟩ := needs_acceptText hc text
  have hc₁ := hneeds.sound_of_ok hc htaken
  have hoptions := options_of_ok ((upkeep_alike _ _).acceptText text) htaken
  cases taken with
  | true =>
      refine .inl ⟨⟨c₁, ?_⟩, hneeds.lift_bind_of_ok (n := 0) htaken (.pure ())⟩
      simp only [expectText, bind, EStateM.bind, liftM_eq, htaken]
      rfl
  | false =>
      rw [← hoptions]
      refine .inr (.after hneeds htaken (.get_bind (fun _ => rfl) ?_))
      exact complains_found hc₁ .unexpectedCharacter _
        (fun found => s!"expected \"{text}\", but found '{found}' instead")
        (fun found d => d.withExcerpt found) fun _ _ => rfl

theorem needs_expectOneOf (hc : c.source.faults = {}) (set : String) (message : Option String) :
    ((∃ c', expectOneOf set message c = .ok () c')
        ∧ Needs Failure.source (expectOneOf set message) c 0)
      ∨ Complains .unexpectedCharacter (expectOneOf set message) c
          (excerptSeeks c.options.excerptWidth + excerptSeeks c.options.excerptWidth) := by
  have hneeds := needs_acceptOneOf hc set
  obtain ⟨taken, c₁, htaken, hc₁⟩ := hneeds.exists_ok hc
  have hoptions := options_of_ok ((upkeep_alike _ _).acceptOneOf set) htaken
  cases taken with
  | true =>
      refine .inl ⟨⟨c₁, ?_⟩, hneeds.lift_bind_of_ok (n := 0) htaken (.pure ())⟩
      simp only [expectOneOf, bind, EStateM.bind, liftM_eq, htaken]
      rfl
  | false =>
      rw [← hoptions, ← Nat.zero_add (_ + _)]
      refine .inr (.after hneeds htaken (.get_bind (fun _ => rfl) ?_))
      exact complains_found hc₁ .unexpectedCharacter _
        (fun found => message.getD s!"expected one of '{set}' but found '{found}'")
        (fun _ d => d) fun _ _ => rfl

/-! ## Expressions -/

/-- The seeks that a parse takes, by what comes of it: none if it succeeds, else those of the
report, after one to go back if it is a literal that is reported. -/
def parseSeeks (width : Nat) : Except Failure α → Nat
  | .ok _ => 0
  | .error e => (if e.code = .literalTooLarge then 1 else 0) + excerptSeeks width

theorem complains_report (hc : c.source.faults = {}) (mismatch : Mismatch) :
    Complains mismatch.code (report mismatch : ParseM α) c
      (excerptSeeks c.options.excerptWidth) := by
  refine complains_diagnose hc mismatch.code mismatch.message _ fun d => ?_
  rw [Diagnostic.foldl_withHelp]

theorem Complains.parseSeeks {code : ErrorCode} {x : ParseM α} {width : Nat}
    (h : Complains code x c n) :
    parseSeeks width (answerOf (x c))
      = (if code = .literalTooLarge then 1 else 0) + excerptSeeks width := by
  obtain ⟨d, c', hfails, rfl⟩ := h.fails
  rw [hfails]
  rfl

/-- A report takes the seeks of its excerpt, after one to go back to the start of a literal. -/
theorem needs_reportAt {m : Machine} {mismatch : Mismatch} {site : Option State}
    (hc : c.source.faults = {}) (hstep : m.step c.state = .reject mismatch site) :
    Needs Failure.source (reportAt mismatch site : ParseM α) c
      (parseSeeks c.options.excerptWidth (answerOf ((reportAt mismatch site : ParseM α) c))) := by
  rcases Machine.site_of_reject hstep with ⟨rfl, hcode⟩ | ⟨start, rfl, hcode⟩
  · have hcomplains : Complains mismatch.code (reportAt mismatch none : ParseM α) c _ :=
      complains_report hc mismatch
    rw [hcomplains.parseSeeks, if_neg hcode, Nat.zero_add]
    exact hcomplains.needs
  · have hback := needs_restore hc start
    obtain ⟨u, c₁, hrestore, hc₁⟩ := hback.exists_ok hc
    have hoptions := options_of_ok ((upkeep_alike _ _).restore trivial) hrestore
    have hcomplains : Complains mismatch.code (reportAt mismatch (some start) : ParseM α) c _ :=
      .after hback hrestore (complains_report hc₁ mismatch)
    rw [hcomplains.parseSeeks, if_pos hcode, ← hoptions]
    exact hcomplains.needs

/-- **A parse that succeeds never seeks**, and one that fails seeks for its report alone. -/
theorem needs_run (m : Machine) (hc : c.source.faults = {}) :
    Needs Failure.source (run m) c (parseSeeks c.options.excerptWidth (answerOf (run m c))) := by
  fun_induction Cursor.run m c with
  | case1 m c e hstep =>
      refine Needs.congr (.pure e) fun d hstate _ => ?_
      rw [run_eq, hstate, hstep]
      rfl
  | case2 m c mismatch site hstep =>
      refine (needs_reportAt hc hstep).congr fun d hstate _ => ?_
      rw [run_eq, hstate, hstep]
  | case3 m c next hstep ih =>
      refine (ih hc).congr fun d hstate _ => ?_
      rw [run_eq, hstate, hstep]
  | case4 m c next hstep moved c' hmove ih =>
      have hstay := needs_advance hc
      have hc' := hstay.sound_of_ok hc hmove
      have hrest : Needs Failure.source (liftM advance >>= fun _ => run next) c _ :=
        hstay.lift_bind_of_ok hmove (ih hc')
      -- a step takes no seek, so the count is that of the rest of the run
      rw [Nat.zero_add, options_of_ok (upkeep_alike _ _).advance hmove] at hrest
      refine hrest.congr fun d hstate _ => ?_
      rw [run_eq, hstate, hstep]
      simp only [bind, EStateM.bind, liftM_eq]
      cases advance d <;> rfl
  | case5 m c next hstep e c' hmove => exact absurd hmove ((needs_advance hc).answers e c')

/-- What comes after an expression that has to be all the rest takes a seek only for a report. -/
theorem needs_finish (e : Expr) (hc : c.source.faults = {}) :
    Needs Failure.source (finish e) c
      (parseSeeks c.options.excerptWidth (answerOf (finish e c))) := by
  rw [finish_eq]
  refine .get_bind (fun _ => rfl) ?_
  cases c.current with
  | none => exact .pure e
  | some byte =>
      have hcomplains := complains_report (α := Expr) hc (.trailing byte)
      have htrailing : ¬ (Mismatch.trailing byte).code = .literalTooLarge :=
        fun hcode => by cases hcode
      dsimp only
      rw [hcomplains.parseSeeks, if_neg htrailing, Nat.zero_add]
      exact hcomplains.needs

theorem needs_parseToEnd (hc : c.source.faults = {}) :
    Needs Failure.source parseToEnd c
      (parseSeeks c.options.excerptWidth (answerOf (parseToEnd c))) := by
  have hparse := needs_run (.start .expr) hc
  rw [parseToEnd_eq_bind]
  cases h : run (.start .expr) c with
  | error e c₁ =>
      rw [h] at hparse
      have hbind : (parse .expr >>= finish) c = .error e c₁ := by
        simp only [bind, EStateM.bind, parse, h]
      rw [hbind]
      exact hparse.bind_of_error h
  | ok e c₁ =>
      have hfinish := needs_finish e (hparse.sound_of_ok hc h)
      have hoptions := options_of_ok ((upkeep_alike _ _).parse .expr) h
      rw [h] at hparse
      have hbind : (parse .expr >>= finish) c = finish e c₁ := by
        simp only [bind, EStateM.bind, parse, h]
      rw [hbind, ← hoptions]
      -- an expression that has been read took no seek, so what there is to seek comes after
      rw [← Nat.zero_add (parseSeeks _ _)]
      exact hparse.bind_of_ok h hfinish

/-! ## Opening a source -/

/-- A source is opened as its bytes in memory would be, or not at all. -/
theorem opens_under (source : Source) (options : Options) :
    (source.faults.Affords 1 ∧ ofSource source options
        = .ok ((along source.bytes options 0).under (source.faults.spend 1)))
      ∨ ∃ e, ofSource source options = .error e
        ∧ (source.faults.OnlySeeks → ¬ source.faults.Affords 1
          ∧ e = .unusable .notSeekable) := by
  obtain ⟨moved, hrewind⟩ := rewind_ofBytesAt source.bytes source.head options
  have hmemory : Source.ofBytesAt source.bytes source.head = { source with faults := {} } := by
    rw [Source.ofBytesAt, Source.ofBytes, Source.bytes, Array.toArray_toList]
  rw [hmemory] at hrewind
  have hneeds := needs_rewind (c := { source := { source with faults := {} }, options }) rfl
  have hunder : ({ source := { source with faults := {} }, options } : Cursor).under source.faults
      = { source, options } := rfl
  rcases hneeds.agrees source.faults with ⟨hafford, hagree⟩ | ⟨e, c', hfail, hwhy⟩
  · rw [hunder, hrewind] at hagree
    refine .inl ⟨hafford, ?_⟩
    rw [ofSource, hagree]
    rfl
  · rw [hunder] at hfail
    refine .inr ⟨e.atStart, ?_, fun honly => ?_⟩
    · rw [ofSource, hfail]
      rfl
    · obtain ⟨hnot, hrefused⟩ := hwhy honly
      obtain ⟨offset, rfl⟩ := hrefused.error
      exact ⟨hnot, rfl⟩

end Cursor

/-! ## All requests -/

namespace Request

open Cursor

/-- The seeks that a request takes, by what it is answered with, where diagnostics quote this many
bytes. -/
def seeks (width : Nat) (answer : Except Failure Reply) : Request → Nat
  | .advance | .probeOneOf _ | .acceptOneOf _ | .takeWhile _ => 0
  | .rewind | .peek | .restore _ | .probeText _ => 1
  | .slice first past => if first < past then 2 else 0
  | .between first last => if first.position - 1 < last.position then 2 else 0
  | .excerpt quoted => excerptSeeks quoted
  | .diagnose .. => excerptSeeks width
  | .acceptText _ =>
    match answer with
    | .ok (.flag true) => 0
    | _ => 1
  | .expectText text =>
    match answer with
    | .ok _ => 0
    | .error _ => 1 + (excerptSeeks (text.utf8ByteSize + width) + excerptSeeks width)
  | .expectOneOf .. =>
    match answer with
    | .ok _ => 0
    | .error _ => excerptSeeks width + excerptSeeks width
  | .parse _ | .parseToEnd => parseSeeks width answer

theorem needs_reply {x : CursorM α} (hc : c.source.faults = {}) (hx : Needs id x c n)
    (reply : α → Reply) :
    Needs Failure.source (liftM x >>= fun a => pure (reply a)) c n :=
  hx.lift_bind (n := 0) hc fun _ _ _ _ => .pure _

theorem needs_tree {x : ParseM Expr} {width : Nat}
    (hx : Needs Failure.source x c (parseSeeks width (answerOf (x c)))) :
    Needs Failure.source (x >>= fun e => pure (Reply.tree e)) c
      (parseSeeks width (answerOf ((x >>= fun e => pure (Reply.tree e)) c))) := by
  cases h : x c with
  | ok e c' =>
      have hbind : (x >>= fun e => pure (Reply.tree e)) c = .ok (.tree e) c' := by
        simp only [bind, EStateM.bind, h]
        rfl
      rw [h] at hx
      rw [hbind]
      exact hx.bind_of_ok (n := 0) h (.pure _)
  | error e c' =>
      have hbind : (x >>= fun e => pure (Reply.tree e)) c = .error e c' := by
        simp only [bind, EStateM.bind, h]
      rw [h] at hx
      rw [hbind]
      exact hx.bind_of_error h

theorem needs_done {code : ErrorCode} {x : ParseM Unit}
    (hx : ((∃ c', x c = .ok () c') ∧ Needs Failure.source x c 0) ∨ Complains code x c n) :
    Needs Failure.source (x >>= fun _ => pure Reply.done) c
      (match answerOf ((x >>= fun _ => pure Reply.done) c) with
        | .ok _ => 0
        | .error _ => n) := by
  rcases hx with ⟨⟨c₁, hok⟩, hneeds⟩ | ⟨⟨d, c₁, hfails, -⟩, hneeds⟩
  · have hbind : (x >>= fun _ => pure Reply.done) c = .ok .done c₁ := by
      simp only [bind, EStateM.bind, hok]
      rfl
    rw [hbind]
    exact hneeds.bind_of_ok (n := 0) hok (.pure _)
  · have hbind : (x >>= fun _ => pure Reply.done) c = .error (.mismatch d) c₁ := by
      simp only [bind, EStateM.bind, hfails]
    rw [hbind]
    exact hneeds.bind_of_error hfails

/-- **Every request needs exactly the seeks of the table**, and a failing source does not make it
answer anything else. -/
theorem needs_perform (hc : c.source.faults = {}) (r : Request) :
    Needs Failure.source r.perform c (r.seeks c.options.excerptWidth (answerOf (r.perform c))) := by
  cases r with
  | advance => exact needs_reply hc (needs_advance hc) .flag
  | rewind => exact needs_reply hc (needs_rewind hc) .flag
  | peek => exact needs_reply hc (needs_peek hc) .byte
  | restore s => exact needs_reply hc (needs_restore hc s) fun _ => .done
  | slice first past => exact needs_reply hc (needs_slice hc first past) .bytes
  | between first last => exact needs_reply hc (needs_slice hc _ _) .bytes
  | excerpt width => exact needs_reply hc (needs_excerpt hc width) .text
  | diagnose code message => exact needs_reply hc (needs_diagnose hc code message) .diagnostic
  | probeText text => exact needs_reply hc (needs_probeText hc text) .length
  | probeOneOf set => exact .get_bind (fun _ => rfl) (.pure _)
  | acceptOneOf set => exact needs_reply hc (needs_acceptOneOf hc set) .flag
  | takeWhile p => exact needs_reply hc (needs_takeWhile p hc) .bytes
  | acceptText text =>
      obtain ⟨taken, c₁, htaken, hneeds⟩ := needs_acceptText hc text
      have hanswer : answerOf (perform (.acceptText text) c) = .ok (.flag taken) := by
        simp only [perform, bind, EStateM.bind, liftM_eq, htaken]
        rfl
      rw [hanswer]
      cases taken with
      | true => exact needs_reply hc hneeds .flag
      | false => exact needs_reply hc hneeds .flag
  | expectText text => exact needs_done (needs_expectText hc text)
  | expectOneOf set message => exact needs_done (needs_expectOneOf hc set message)
  | parse rule => exact needs_tree (needs_run (.start rule) hc)
  | parseToEnd => exact needs_tree (needs_parseToEnd hc)

end Request

end SeekParse
