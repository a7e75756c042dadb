import SeekParse.Proofs.Outcome

/-!
# Failing with the source, and in no other way

A source may refuse to read or to seek at any moment, and what it would have delivered is then not
known. What has to be excluded is that a reader goes on regardless, and answers as it would for
another input. `Needs` excludes it, for one computation on one cursor whose source does not fail:
let the source fail in whatever way, and the computation either does exactly what it did, or fails
by a failure of the source.

The same statement counts seeks. If all that can go wrong is that seeks run out, then the
computation fails exactly when there are fewer than it needs, and at the seek that is refused there
are none left. So the count is exact, and not only a bound.

Computations are put together by `bind`, where the counts add up. The one place where a failure is
caught is on the way back from a lookahead or a slice (`Needs.thenBack`): what is caught there is
thrown again, unless the way back fails too.
-/

namespace SeekParse

variable {ε α β : Type} {src : SourceError → ε} {c c' : Cursor} {m n : Nat}

namespace Faults

variable {faults : Faults}

/-- The faults that are left once this many seeks have been granted. -/
def spend (faults : Faults) (seeks : Nat) : Faults :=
  { faults with seeksLeft := faults.seeksLeft.map (· - seeks) }

/-- This many seeks are still granted. -/
def Affords (faults : Faults) (seeks : Nat) : Prop :=
  ∀ left, faults.seeksLeft = some left → seeks ≤ left

/-- Nothing makes the source fail but that it has no seeks left. -/
structure OnlySeeks (faults : Faults) : Prop where
  unreadableFrom : faults.unreadableFrom = none
  seekLimit : faults.seekLimit = none

theorem spend_zero (faults : Faults) : faults.spend 0 = faults := by
  obtain ⟨unreadableFrom, seeksLeft, seekLimit⟩ := faults
  cases seeksLeft <;> rfl

theorem affords_zero (faults : Faults) : faults.Affords 0 := fun _ _ => Nat.zero_le _

theorem spend_add (faults : Faults) (m n : Nat) :
    faults.spend (m + n) = (faults.spend m).spend n := by
  obtain ⟨unreadableFrom, seeksLeft, seekLimit⟩ := faults
  cases seeksLeft with
  | none => rfl
  | some left => simp [spend, Nat.sub_sub]

theorem affords_add (faults : Faults) (m n : Nat) :
    faults.Affords (m + n) ↔ faults.Affords m ∧ (faults.spend m).Affords n := by
  obtain ⟨unreadableFrom, seeksLeft, seekLimit⟩ := faults
  cases seeksLeft with
  | none => simp [Affords, spend]
  | some left =>
      simp only [Affords, spend, Option.map_some, Option.some.injEq, forall_eq']
      omega

theorem OnlySeeks.spend (h : faults.OnlySeeks) (seeks : Nat) : (faults.spend seeks).OnlySeeks :=
  ⟨h.unreadableFrom, h.seekLimit⟩

end Faults

/-- The same cursor, with a source that fails like this. -/
def Cursor.under (c : Cursor) (faults : Faults) : Cursor :=
  { c with source := { c.source with faults } }

/-- The same outcome, with a source that fails like this from then on. -/
def outcomeUnder (faults : Faults) : EStateM.Result ε Cursor α → EStateM.Result ε Cursor α
  | .ok a c => .ok a (c.under faults)
  | .error e c => .error e (c.under faults)

/-- A seek that was refused, because there were none left. -/
structure Refused (e : SourceError) (c : Cursor) : Prop where
  error : ∃ offset, e = .seek offset .notSeekable
  faults : c.source.faults = { seeksLeft := some 0 }

/--
`Needs src x c seeks`, for a cursor whose source does not fail: `x` is not failed by the source
there, and needs this many seeks. With any faults, either they afford that many seeks, and `x` does
the same and spends them; or `x` fails by a failure of the source, as `src` has it. If it can only
fail for want of seeks, then they were too few.
-/
structure Needs (src : SourceError → ε) (x : EStateM ε Cursor α) (c : Cursor) (seeks : Nat) :
    Prop where
  /-- Where the source does not fail, it is not the source that fails. -/
  answers : ∀ e c', x c ≠ .error (src e) c'
  /-- Where it does, the outcome is the same, or a failure of the source. -/
  agrees : ∀ faults : Faults,
    (faults.Affords seeks ∧ x (c.under faults) = outcomeUnder (faults.spend seeks) (x c))
      ∨ ∃ e c', x (c.under faults) = .error (src e) c'
        ∧ (faults.OnlySeeks → ¬ faults.Affords seeks ∧ Refused e c')

theorem Cursor.under_of_sound (hc : c.source.faults = {}) : c.under {} = c := by
  obtain ⟨⟨contents, head, faults⟩, state, options⟩ := c
  cases hc
  rfl

namespace Needs

theorem answers_of_ok {x : EStateM ε Cursor α} {a : α} (h : x c = .ok a c') (e : SourceError)
    (d : Cursor) : x c ≠ .error (src e) d := by
  intro herror
  rw [h] at herror
  cases herror

/-- Where nothing is asked of the source, it does not matter how that fails. -/
theorem blind {x : EStateM ε Cursor α} (hanswers : ∀ e c', x c ≠ .error (src e) c')
    (h : ∀ faults, x (c.under faults) = outcomeUnder faults (x c)) : Needs src x c 0 := by
  refine ⟨hanswers, fun faults => .inl ⟨faults.affords_zero, ?_⟩⟩
  rw [faults.spend_zero, h]

theorem pure (a : α) : Needs src (pure a) c 0 := .blind (answers_of_ok rfl) fun _ => rfl

theorem throw {e : ε} (he : ∀ e', e ≠ src e') : Needs src (throw e : EStateM ε Cursor α) c 0 := by
  refine .blind ?_ fun _ => rfl
  intro e' c' h
  cases h
  exact he e' rfl

/-- What a computation is may be decided by the state and the options, which no fault changes. -/
theorem congr {x y : EStateM ε Cursor α} (hy : Needs src y c n)
    (h : ∀ d : Cursor, d.state = c.state → d.options = c.options → x d = y d) :
    Needs src x c n := by
  refine ⟨?_, fun faults => ?_⟩
  · rw [h c rfl rfl]
    exact hy.answers
  · rw [h c rfl rfl, h (c.under faults) rfl rfl]
    exact hy.agrees faults

/-- What does not meet a fault does not make one. -/
theorem outcomeUnder_sound {x : EStateM ε Cursor α} (hx : Needs src x c n)
    (hc : c.source.faults = {}) : outcomeUnder {} (x c) = x c := by
  rcases hx.agrees {} with ⟨-, h⟩ | ⟨e, c', h, -⟩
  · rw [Cursor.under_of_sound hc] at h
    exact h.symm
  · rw [Cursor.under_of_sound hc] at h
    exact absurd h (hx.answers e c')

/-- What is left behind does not fail either, whatever came of it. -/
theorem sound_stateAfter {x : EStateM ε Cursor α} (hx : Needs src x c n)
    (hc : c.source.faults = {}) : (stateAfter x c).source.faults = {} := by
  have hsound := hx.outcomeUnder_sound hc
  rw [stateAfter]
  cases h : x c with
  | ok a c' =>
      rw [h] at hsound
      injection hsound with _ hsound
      rw [← hsound]
      rfl
  | error e c' =>
      rw [h] at hsound
      injection hsound with _ hsound
      rw [← hsound]
      rfl

theorem sound_of_ok {x : EStateM ε Cursor α} (hx : Needs src x c n) (hc : c.source.faults = {})
    {a : α} (h : x c = .ok a c') : c'.source.faults = {} := by
  have hsound := hx.sound_stateAfter hc
  rw [stateAfter, h] at hsound
  exact hsound

/-- What faults make of an answer, and of the cursor after it. -/
theorem answer_agrees {x : EStateM ε Cursor α} (hx : Needs src x c n) (faults : Faults) :
    (faults.Affords n ∧ answerOf (x (c.under faults)) = answerOf (x c)
        ∧ stateAfter x (c.under faults) = (stateAfter x c).under (faults.spend n))
      ∨ ∃ e, answerOf (x (c.under faults)) = .error (src e)
        ∧ (faults.OnlySeeks → ¬ faults.Affords n ∧ Refused e (stateAfter x (c.under faults))) := by
  rcases hx.agrees faults with ⟨hafford, hagree⟩ | ⟨e, c', hfail, hwhy⟩
  · refine .inl ⟨hafford, ?_⟩
    rw [stateAfter, stateAfter, hagree]
    cases x c with
    | ok a d => exact ⟨rfl, rfl⟩
    | error e d => exact ⟨rfl, rfl⟩
  · refine .inr ⟨e, ?_⟩
    rw [stateAfter, hfail]
    exact ⟨rfl, hwhy⟩

theorem exists_ok {x : CursorM α} (hx : Needs id x c n) (hc : c.source.faults = {}) :
    ∃ a c', x c = .ok a c' ∧ c'.source.faults = {} := by
  cases h : x c with
  | ok a c' => exact ⟨a, c', rfl, hx.sound_of_ok hc h⟩
  | error e c' => exact absurd h (hx.answers e c')

theorem bind_of_ok {x : EStateM ε Cursor α} {f : α → EStateM ε Cursor β} {a : α}
    (hx : Needs src x c m) (h : x c = .ok a c') (hf : Needs src (f a) c' n) :
    Needs src (x >>= f) c (m + n) := by
  have hbind : (x >>= f) c = f a c' := by
    simp only [Bind.bind, EStateM.bind, h]
  refine ⟨?_, fun faults => ?_⟩
  · rw [hbind]
    exact hf.answers
  rw [faults.affords_add, faults.spend_add, hbind]
  simp only [Bind.bind, EStateM.bind]
  rcases hx.agrees faults with ⟨hm, hagree⟩ | ⟨e, d, hfail, hwhy⟩
  · rw [h] at hagree
    rw [hagree]
    dsimp only [outcomeUnder]
    rcases hf.agrees (faults.spend m) with ⟨hn, hagree'⟩ | ⟨e, d, hfail, hwhy⟩
    · exact .inl ⟨⟨hm, hn⟩, hagree'⟩
    · refine .inr ⟨e, d, hfail, fun honly => ?_⟩
      obtain ⟨hnot, hrefused⟩ := hwhy (honly.spend m)
      exact ⟨fun hboth => hnot hboth.2, hrefused⟩
  · rw [hfail]
    refine .inr ⟨e, d, rfl, fun honly => ?_⟩
    obtain ⟨hnot, hrefused⟩ := hwhy honly
    exact ⟨fun hboth => hnot hboth.1, hrefused⟩

theorem bind_of_error {x : EStateM ε Cursor α} {f : α → EStateM ε Cursor β} {e : ε}
    (hx : Needs src x c n) (h : x c = .error e c') : Needs src (x >>= f) c n := by
  have hbind : (x >>= f) c = .error e c' := by
    simp only [Bind.bind, EStateM.bind, h]
  refine ⟨?_, fun faults => ?_⟩
  · intro e' d heq
    rw [hbind] at heq
    cases heq
    exact hx.answers e' c' h
  rw [hbind]
  simp only [Bind.bind, EStateM.bind]
  rcases hx.agrees faults with ⟨hn, hagree⟩ | ⟨e', d, hfail, hwhy⟩
  · rw [h] at hagree
    rw [hagree]
    exact .inl ⟨hn, rfl⟩
  · rw [hfail]
    exact .inr ⟨e', d, rfl, hwhy⟩

theorem bind {x : CursorM α} {f : α → CursorM β} (hc : c.source.faults = {}) (hx : Needs id x c m)
    (hf : ∀ a c', x c = .ok a c' → c'.source.faults = {} → Needs id (f a) c' n) :
    Needs id (x >>= f) c (m + n) := by
  obtain ⟨a, c', h, hc'⟩ := hx.exists_ok hc
  exact hx.bind_of_ok h (hf a c' h hc')

/-- `bind`, where what comes first takes no seek. -/
theorem after_free {x : CursorM α} {f : α → CursorM β} (hc : c.source.faults = {})
    (hx : Needs id x c 0)
    (hf : ∀ a c', x c = .ok a c' → c'.source.faults = {} → Needs id (f a) c' n) :
    Needs id (x >>= f) c n := by
  rw [← Nat.zero_add n]
  exact hx.bind hc hf

/-- `bind`, where what comes after takes no seek. -/
theorem then_free {x : CursorM α} {f : α → CursorM β} (hc : c.source.faults = {})
    (hx : Needs id x c n)
    (hf : ∀ a c', x c = .ok a c' → c'.source.faults = {} → Needs id (f a) c' 0) :
    Needs id (x >>= f) c n :=
  hx.bind hc hf

theorem get_bind {f : Cursor → EStateM ε Cursor β} (hf : ∀ faults, f (c.under faults) = f c)
    (h : Needs src (f c) c n) : Needs src (get >>= f) c n := by
  refine ⟨h.answers, fun faults => ?_⟩
  have hbind : (get >>= f) (c.under faults) = f c (c.under faults) := by
    rw [← hf faults]
    rfl
  rw [hbind]
  exact h.agrees faults

theorem lift {x : CursorM α} (hx : Needs id x c n) :
    Needs Failure.source (liftM x : ParseM α) c n := by
  refine ⟨?_, fun faults => ?_⟩
  · intro e c' h
    rw [Cursor.liftM_eq] at h
    cases hr : x c with
    | ok a d =>
        rw [hr] at h
        cases h
    | error e' d => exact hx.answers e' d hr
  · rw [Cursor.liftM_eq, Cursor.liftM_eq]
    rcases hx.agrees faults with ⟨hn, hagree⟩ | ⟨e, d, hfail, hwhy⟩
    · refine .inl ⟨hn, ?_⟩
      rw [hagree]
      cases x c <;> rfl
    · refine .inr ⟨e, d, ?_, hwhy⟩
      rw [hfail]
      rfl

theorem lift_bind_of_ok {x : CursorM α} {f : α → ParseM β} {a : α} (hx : Needs id x c m)
    (h : x c = .ok a c') (hf : Needs Failure.source (f a) c' n) :
    Needs Failure.source (liftM x >>= f) c (m + n) := by
  refine hx.lift.bind_of_ok ?_ hf
  rw [Cursor.liftM_eq, h]

/-- `bind`, where what comes first can fail by the source alone. -/
theorem lift_bind {x : CursorM α} {f : α → ParseM β} (hc : c.source.faults = {})
    (hx : Needs id x c m)
    (hf : ∀ a c', x c = .ok a c' → c'.source.faults = {} → Needs Failure.source (f a) c' n) :
    Needs Failure.source (liftM x >>= f) c (m + n) := by
  obtain ⟨a, c', h, hc'⟩ := hx.exists_ok hc
  exact hx.lift_bind_of_ok h (hf a c' h hc')

/-- To try something and go back, whatever came of it, takes one more seek. -/
theorem thenBack {x : CursorM α} {back : CursorM Unit} (hc : c.source.faults = {})
    (hx : Needs id x c m) (hback : ∀ d : Cursor, d.source.faults = {} → Needs id back d 1) :
    Needs id (Cursor.attempt x >>= fun outcome => back >>= fun _ => ofExcept outcome) c
      (m + 1) := by
  obtain ⟨a, c₁, hr, hc₁⟩ := hx.exists_ok hc
  obtain ⟨u, c₂, hr', hc₂⟩ := (hback c₁ hc₁).exists_ok hc₁
  have hbind : (Cursor.attempt x >>= fun outcome => back >>= fun _ => ofExcept outcome) c
      = .ok a c₂ := by
    simp only [Bind.bind, EStateM.bind, Cursor.attempt, hr, hr']
    rfl
  refine ⟨answers_of_ok hbind, fun faults => ?_⟩
  rw [faults.affords_add, faults.spend_add, hbind]
  simp only [Bind.bind, EStateM.bind, Cursor.attempt]
  rcases hx.agrees faults with ⟨hm, hagree⟩ | ⟨e, d, hfail, hwhy⟩
  · rw [hr] at hagree
    rw [hagree]
    dsimp only [outcomeUnder]
    rcases (hback c₁ hc₁).agrees (faults.spend m) with ⟨hn, hagree'⟩ | ⟨e, d, hfail, hwhy⟩
    · rw [hagree', hr']
      exact .inl ⟨⟨hm, hn⟩, rfl⟩
    · rw [hfail]
      refine .inr ⟨e, d, rfl, fun honly => ?_⟩
      obtain ⟨hnot, hrefused⟩ := hwhy (honly.spend m)
      exact ⟨fun hboth => hnot hboth.2, hrefused⟩
  · -- the way back is tried all the same, and it needs a seek too
    rw [hfail]
    dsimp only
    have hd : d = (d.under {}).under d.source.faults := rfl
    rcases (hback (d.under {}) rfl).agrees d.source.faults with
      ⟨hn, hagree⟩ | ⟨e', d', hfail', hwhy'⟩
    · rw [← hd] at hagree
      obtain ⟨u', d', hr'', -⟩ := (hback (d.under {}) rfl).exists_ok rfl
      rw [hagree, hr'']
      refine .inr ⟨e, _, rfl, fun honly => ?_⟩
      -- with no seek left it would have been refused
      obtain ⟨-, hrefused⟩ := hwhy honly
      rw [hrefused.faults] at hn
      exact absurd (hn 0 rfl) (by decide)
    · rw [← hd] at hfail'
      rw [hfail']
      refine .inr ⟨e', d', rfl, fun honly => ?_⟩
      obtain ⟨hnot, hrefused⟩ := hwhy honly
      refine ⟨fun hboth => hnot hboth.1, (hwhy' ?_).2⟩
      rw [hrefused.faults]
      exact ⟨rfl, rfl⟩

end Needs

end SeekParse
