import SeekParse.Cursor.Place
import SeekParse.Proofs.Outcome

/-!
# Every loop over the input ends

A run of bytes, a text to be found and an expression are all read by loops, and none of them counts
how often it goes round. Each goes by the current byte alone: it advances past a byte that suits it,
and stops at one that does not. What `advance` says to that, it does not ask.

So why do they end? A loop advances only where there is a current byte, and a cursor at the end of
its input has none. An advance of a cursor that is not at the end brings it closer to there: a byte
that was ahead of the head of its source is ahead no more, or there was none. This counts from the
head of the source, and not from the position that the cursor has counted, since after a failed seek
the two need not agree.

`Loop` is what these loops have in common, and `Loop.Runs` is a whole run of one, with every cursor
that is advanced in it. A run is finite, so where there is one, the loop has ended.

* `Loop.acc_goes`: no loop goes on for ever.
* `Loop.exists_runs`, `Loop.Runs.unique`: from any cursor there is one run.
* `Loop.Runs.length_le`: it advances at most once for each byte ahead, and once more.
* `loops_end`: the functions that read lexemes and expressions are such loops, and what they do
  after them advances nothing.
-/

namespace SeekParse

variable {σ β γ : Type}

/-! ## Loops -/

/-- What a loop does next. -/
inductive Loop.Next (σ β : Type) where
  /-- Advance the cursor, and go on like this. -/
  | advance (m : σ)
  /-- Go on like this, with the cursor where it is. -/
  | turn (m : σ)
  /-- Stop, and come to this. -/
  | stop (result : β)

/-- A loop over the input. It goes by the state of the cursor, and has a state of its own. -/
structure Loop (σ β : Type) where
  /-- What to do next. -/
  next : σ → Cursor.State → Loop.Next σ β
  /-- It advances only past a current byte. -/
  current_of_advance : ∀ {m m' s}, next m s = .advance m' → ∃ byte, s.current = some byte
  /-- Without advancing it cannot go on for ever. -/
  wellFounded_turn : WellFounded fun m' m => ∃ s, next m s = .turn m'

namespace Loop

variable {l : Loop σ β} {m : σ} {c : Cursor} {calls calls' : List Cursor}
  {r r' : EStateM.Result SourceError Cursor β}

/-- One round of a loop. -/
inductive Goes (l : Loop σ β) : σ × Cursor → σ × Cursor → Prop where
  | advance {m m' : σ} {c c' : Cursor} {moved : Bool} :
      l.next m c.state = .advance m' → Cursor.advance c = .ok moved c' → Goes l (m, c) (m', c')
  | turn {m m' : σ} {c : Cursor} : l.next m c.state = .turn m' → Goes l (m, c) (m', c)

/-- All rounds of a loop, with the cursors that are advanced in them, and what it comes to. A loop
whose cursor cannot be advanced has failed. -/
inductive Runs (l : Loop σ β) :
    σ → Cursor → List Cursor → EStateM.Result SourceError Cursor β → Prop where
  | stop {m : σ} {c : Cursor} {b : β} : l.next m c.state = .stop b → Runs l m c [] (.ok b c)
  | turn {m m' : σ} {c : Cursor} {calls : List Cursor} {r : EStateM.Result SourceError Cursor β} :
      l.next m c.state = .turn m' → Runs l m' c calls r → Runs l m c calls r
  | advance {m m' : σ} {c c' : Cursor} {moved : Bool} {calls : List Cursor}
      {r : EStateM.Result SourceError Cursor β} :
      l.next m c.state = .advance m' → Cursor.advance c = .ok moved c' →
      Runs l m' c' calls r → Runs l m c (c :: calls) r
  | fail {m m' : σ} {c c' : Cursor} {e : SourceError} :
      l.next m c.state = .advance m' → Cursor.advance c = .error e c' →
      Runs l m c [c] (.error e c')

/-- Only an active cursor is advanced: one at the end has no current byte. -/
theorem isActive_of_advance (l : Loop σ β) {m m' : σ} {s : Cursor.State}
    (h : l.next m s = .advance m') : s.isActive = true := by
  obtain ⟨byte, hbyte⟩ := l.current_of_advance h
  exact Cursor.State.isActive_of_current hbyte

/-! ## Loops end -/

/-- **No loop goes on for ever**, whatever the source does. A round lowers what is unread, or is
one of the turns that come to an end by themselves. -/
theorem acc_goes (l : Loop σ β) (m : σ) (c : Cursor) :
    Acc (fun next now => l.Goes now next) (m, c) := by
  have hwf := (Prod.lex Nat.lt_wfRel ⟨_, l.wellFounded_turn⟩).wf
  refine Subrelation.accessible ?_
    ((InvImage.wf (fun now : σ × Cursor => (now.2.unread, now.1)) hwf).apply (m, c))
  intro next now hgoes
  cases hgoes with
  | advance hnext hadvance =>
      exact .left _ _ (Cursor.unread_lt_of_advance (l.isActive_of_advance hnext) hadvance)
  | turn hnext => exact .right _ ⟨_, hnext⟩

/-- There is a run from any cursor. -/
theorem exists_runs (l : Loop σ β) (m : σ) (c : Cursor) : ∃ calls r, l.Runs m c calls r := by
  obtain ⟨now, hnow⟩ : ∃ now, now = (m, c) := ⟨_, rfl⟩
  have hacc := l.acc_goes m c
  rw [← hnow] at hacc
  induction hacc generalizing m c with
  | intro now _ ih =>
      subst hnow
      cases hnext : l.next m c.state with
      | stop b => exact ⟨[], _, .stop hnext⟩
      | turn m' =>
          obtain ⟨calls, r, hrest⟩ := ih _ (.turn hnext) m' c rfl
          exact ⟨calls, r, .turn hnext hrest⟩
      | advance m' =>
          cases hadvance : Cursor.advance c with
          | ok moved c' =>
              obtain ⟨calls, r, hrest⟩ := ih _ (.advance hnext hadvance) m' c' rfl
              exact ⟨c :: calls, r, .advance hnext hadvance hrest⟩
          | error e c' => exact ⟨[c], _, .fail hnext hadvance⟩

/-- There is no other. -/
theorem Runs.unique (h : l.Runs m c calls r) (h' : l.Runs m c calls' r') :
    calls' = calls ∧ r' = r := by
  induction h generalizing calls' r' with
  | stop hnext => cases h' <;> simp_all
  | turn hnext _ ih =>
      cases h' with
      | turn hnext' hrest' =>
          rw [hnext] at hnext'
          cases hnext'
          exact ih hrest'
      | _ => simp_all
  | advance hnext hadvance _ ih =>
      cases h' with
      | advance hnext' hadvance' hrest' =>
          rw [hnext] at hnext'
          rw [hadvance] at hadvance'
          cases hnext'
          cases hadvance'
          obtain ⟨rfl, rfl⟩ := ih hrest'
          exact ⟨rfl, rfl⟩
      | _ => simp_all
  | fail hnext hadvance => cases h' <;> simp_all

/-! ## How often a loop advances -/

/-- A loop never has more to read than at its start. -/
theorem Runs.unread_le (h : l.Runs m c calls r) : ∀ c' ∈ calls, c'.unread ≤ c.unread := by
  induction h with
  | stop _ => exact nofun
  | turn _ _ ih => exact ih
  | advance hnext hadvance _ ih =>
      have hlt := Cursor.unread_lt_of_advance (l.isActive_of_advance hnext) hadvance
      intro c' hmem
      rcases List.mem_cons.1 hmem with rfl | hmem
      · exact Nat.le_refl _
      · exact Nat.le_trans (ih c' hmem) (Nat.le_of_lt hlt)
  | fail _ _ => exact List.forall_mem_singleton.2 (Nat.le_refl _)

/-- Each cursor that is advanced has less unread than the one before. -/
theorem Runs.pairwise (h : l.Runs m c calls r) :
    calls.Pairwise fun before after => after.unread < before.unread := by
  induction h with
  | stop _ => exact .nil
  | turn _ _ ih => exact ih
  | advance hnext hadvance hrest ih =>
      have hlt := Cursor.unread_lt_of_advance (l.isActive_of_advance hnext) hadvance
      exact .cons (fun c' hmem => Nat.lt_of_le_of_lt (hrest.unread_le c' hmem) hlt) ih
  | fail _ _ => exact List.pairwise_singleton _ _

/-- Each of them is active. -/
theorem Runs.isActive (h : l.Runs m c calls r) : ∀ c' ∈ calls, c'.state.isActive = true := by
  induction h with
  | stop _ => exact nofun
  | turn _ _ ih => exact ih
  | advance hnext _ _ ih => exact List.forall_mem_cons.2 ⟨l.isActive_of_advance hnext, ih⟩
  | fail hnext _ => exact List.forall_mem_singleton.2 (l.isActive_of_advance hnext)

/-- **A loop advances at most once for each byte ahead, and once more.** -/
theorem Runs.length_le (h : l.Runs m c calls r) : calls.length ≤ c.unread := by
  induction h with
  | stop _ => exact Nat.zero_le _
  | turn _ _ ih => exact ih
  | advance hnext hadvance _ ih =>
      have hlt := Cursor.unread_lt_of_advance (l.isActive_of_advance hnext) hadvance
      rw [List.length_cons]
      omega
  | fail hnext _ =>
      rw [Cursor.unread, l.isActive_of_advance hnext]
      exact Nat.le_add_left _ _

/-- How a loop ends that is started here. -/
structure Ends (l : Loop σ β) (m : σ) (c : Cursor) (calls : List Cursor)
    (r : EStateM.Result SourceError Cursor β) : Prop where
  /-- It does not go on for ever. -/
  acc : Acc (fun next now => l.Goes now next) (m, c)
  /-- It advances these cursors, and comes to this. -/
  runs : l.Runs m c calls r
  /-- There is no other way for it to go. -/
  only : ∀ calls' r', l.Runs m c calls' r' → calls' = calls ∧ r' = r
  /-- It advances no cursor at the end of its input. -/
  isActive : ∀ c' ∈ calls, c'.state.isActive = true
  /-- Each has less unread than the one before. -/
  pairwise : calls.Pairwise fun before after => after.unread < before.unread
  /-- There is at most one for each byte ahead of the head of the source, and one more. -/
  length_le : calls.length ≤ c.source.contents.size - c.source.head + 1

/-- **Every loop ends.** -/
theorem exists_ends (l : Loop σ β) (m : σ) (c : Cursor) : ∃ calls r, l.Ends m c calls r := by
  obtain ⟨calls, r, hruns⟩ := l.exists_runs m c
  have hunread : c.unread ≤ c.source.contents.size - c.source.head + 1 :=
    Nat.add_le_add_left (Bool.toNat_le _) _
  exact ⟨calls, r, l.acc_goes m c, hruns, fun _ _ => hruns.unique, hruns.isActive, hruns.pairwise,
    Nat.le_trans hruns.length_le hunread⟩

/-- A loop that never turns goes on only by advancing. -/
theorem wellFounded_of_no_turn {next : σ → Cursor.State → Next σ β}
    (h : ∀ m s m', next m s ≠ .turn m') : WellFounded fun m' m => ∃ s, next m s = .turn m' :=
  ⟨fun m => ⟨m, fun m' hturn => absurd hturn.choose_spec (h m _ m')⟩⟩

/-! ## Functions that loop -/

/-- A function goes round as a loop does, and makes this of what the loop comes to. -/
def Follows (l : Loop σ β) (x : σ → Cursor → γ)
    (last : EStateM.Result SourceError Cursor β → γ) : Prop :=
  ∀ m c, x m c =
    match l.next m c.state with
    | .stop b => last (.ok b c)
    | .turn m' => x m' c
    | .advance m' =>
      match Cursor.advance c with
      | .ok _ c' => x m' c'
      | .error e c' => last (.error e c')

/-- So it comes to what the loop comes to. -/
theorem Runs.eq_of_follows {x : σ → Cursor → γ}
    {last : EStateM.Result SourceError Cursor β → γ} (h : l.Runs m c calls r)
    (hx : l.Follows x last) : x m c = last r := by
  induction h with
  | stop hnext => rw [hx, hnext]
  | turn hnext _ ih => rw [hx, hnext, ← ih]
  | advance hnext hadvance _ ih => rw [hx, hnext, hadvance, ← ih]
  | fail hnext hadvance => rw [hx, hnext, hadvance]

/-! ## The loops of a cursor -/

/-- A run of bytes is being taken. The loop has those `taken` so far, the last first. -/
def taking (p : UInt8 → Bool) : Loop (List UInt8) (List UInt8) where
  next taken s :=
    match s.current.filter p with
    | some byte => .advance (byte :: taken)
    | none => .stop taken.reverse
  current_of_advance := by
    intro taken taken' s h
    cases hbyte : s.current with
    | some byte => exact ⟨byte, rfl⟩
    | none =>
        rw [hbyte] at h
        cases h
  wellFounded_turn := wellFounded_of_no_turn fun taken s taken' h => by
    split at h <;> cases h

/-- A text is being found. The loop has the bytes that are still to come. -/
def following : Loop (List UInt8) Bool where
  next rest s :=
    match rest with
    | [] => .stop true
    | byte :: rest => if s.current = some byte then .advance rest else .stop false
  current_of_advance := by
    intro rest rest' s h
    cases rest with
    | nil => cases h
    | cons byte rest =>
        dsimp only at h
        split at h
        · exact ⟨byte, ‹_›⟩
        · cases h
  wellFounded_turn := wellFounded_of_no_turn fun rest s rest' h => by
    cases rest with
    | nil => cases h
    | cons byte rest =>
        dsimp only at h
        split at h <;> cases h

/-- An expression is being read. The loop has the machine, which stops at a tree or a mismatch. -/
def reading : Loop Machine (Except (Mismatch × Option Cursor.State) Expr) where
  next m s :=
    match m.step s with
    | .take m' => .advance m'
    | .turn m' => .turn m'
    | .accept e => .stop (.ok e)
    | .reject mismatch site => .stop (.error (mismatch, site))
  current_of_advance := by
    intro m m' s h
    split at h
    · exact Machine.current_of_take ‹_›
    all_goals cases h
  wellFounded_turn := by
    -- between two bytes the machine turns only so often
    have hwf := (Prod.lex Nat.lt_wfRel Nat.lt_wfRel).wf
    refine Subrelation.wf ?_ (InvImage.wf (fun m : Machine => (m.rank, m.frames.length)) hwf)
    intro m' m hturn
    obtain ⟨s, h⟩ := hturn
    split at h
    · cases h
    · rename_i hstep
      cases h
      rcases Machine.lt_of_turn hstep with hlt | ⟨heq, hlt⟩
      · exact .left _ _ hlt
      · show Prod.Lex _ _ (m'.rank, _) (m.rank, _)
        rw [heq]
        exact .right _ hlt
    all_goals cases h

/-- Taking a run is this loop. -/
theorem follows_takeWhileFrom (p : UInt8 → Bool) :
    (taking p).Follows (Cursor.takeWhileFrom p) id := by
  intro taken c
  have hnext : (taking p).next taken c.state =
      match c.current.filter p with
      | some byte => .advance (byte :: taken)
      | none => .stop taken.reverse := rfl
  rw [Cursor.takeWhileFrom_eq, hnext]
  cases c.current.filter p with
  | some byte => rfl
  | none => rfl

/-- Looking for a text is this loop. -/
theorem follows_follow : following.Follows Cursor.follow id := by
  intro rest c
  cases rest with
  | nil => rfl
  | cons byte rest =>
      have hnext : following.next (byte :: rest) c.state =
        if c.current = some byte then .advance rest else .stop false := rfl
      rw [Cursor.follow_cons, hnext]
      by_cases hbyte : c.current = some byte
      · rw [if_pos hbyte, if_pos hbyte]
        rfl
      · rw [if_neg hbyte, if_neg hbyte]
        rfl

/-- What a machine that has stopped is answered with. A mismatch is reported. -/
def conclude : EStateM.Result SourceError Cursor (Except (Mismatch × Option Cursor.State) Expr) →
    EStateM.Result Failure Cursor Expr
  | .ok (.ok e) c => .ok e c
  | .ok (.error (mismatch, site)) c => Cursor.reportAt mismatch site c
  | .error e c => .error (.source e) c

/-- Running a machine is this loop. -/
theorem follows_run : reading.Follows Cursor.run conclude := by
  intro m c
  have hnext : reading.next m c.state =
      match m.step c.state with
      | .take m' => .advance m'
      | .turn m' => .turn m'
      | .accept e => .stop (.ok e)
      | .reject mismatch site => .stop (.error (mismatch, site)) := rfl
  rw [Cursor.run_eq, hnext]
  cases m.step c.state with
  | take next => rfl
  | turn next => rfl
  | accept e => rfl
  | reject mismatch site => rfl

end Loop

namespace Cursor

/-! ## What is read by loops -/

/-- What is made of the search for a text: unless it was there, the cursor goes back. -/
def orGoBack (start : State) : EStateM.Result SourceError Cursor Bool →
    EStateM.Result SourceError Cursor Bool
  | .ok true c => .ok true c
  | .ok false c => (restore start >>= fun _ => pure false) c
  | .error e c => (restore start >>= fun _ => throw e) c

theorem acceptText_eq_orGoBack (text : String) (c : Cursor) :
    acceptText text c = orGoBack c.state (follow (Utf8.encode text) c) := by
  have hsave : (save : CursorM State) c = .ok c.state c := rfl
  rcases h : follow (Utf8.encode text) c with (_ | _) | _ <;>
    simp only [acceptText, orGoBack, bind, EStateM.bind, attempt, hsave, h] <;> rfl

/-- What is made of an expression that has to be all the rest of the input. -/
def thenFinish : EStateM.Result Failure Cursor Expr → EStateM.Result Failure Cursor Expr
  | .ok e c => finish e c
  | .error failure c => .error failure c

theorem parseToEnd_eq_thenFinish (c : Cursor) : parseToEnd c = thenFinish (parse .expr c) := by
  rw [parseToEnd_eq_bind]
  simp only [bind, EStateM.bind]
  cases parse .expr c with
  | ok e c' => rfl
  | error failure c' => rfl

/--
**Everything that reads on through the input ends, on every source.**

Take a cursor in any state on any source, with the head of the source wherever it may be. Taking a
run of bytes, looking for a text, and reading a construct or an expression to the end each come to
an answer. On the way a cursor is advanced only where it has a current byte, so never at the end of
its input, where an advance would change nothing. Each advance leaves less unread, counted from the
head of the source, and there are no more of them than bytes ahead of the head and one more.

That a cursor at the end has no current byte is not a matter of how it got there: the type of states
carries it (`Cursor.Focus`).
-/
theorem loops_end (c : Cursor) :
    (c.state.isActive = false → c.current = none ∧ advance c = .ok false c)
      ∧ (∀ p, ∃ calls r, (Loop.taking p).Ends [] c calls r ∧ takeWhile p c = r)
      ∧ (∀ text, ∃ calls r, Loop.following.Ends (Utf8.encode text) c calls r
          ∧ acceptText text c = orGoBack c.state r)
      ∧ (∀ rule, ∃ calls r, Loop.reading.Ends (.start rule) c calls r
          ∧ parse rule c = Loop.conclude r)
      ∧ ∃ calls r, Loop.reading.Ends (.start .expr) c calls r
          ∧ parseToEnd c = thenFinish (Loop.conclude r) := by
  refine ⟨fun hended => ⟨?_, ?_⟩, fun p => ?_, fun text => ?_, fun rule => ?_, ?_⟩
  · cases hcurrent : c.current with
    | none => rfl
    | some byte =>
        rw [State.isActive_of_current hcurrent] at hended
        cases hended
  · rw [advance, if_neg (Bool.eq_false_iff.1 hended)]
  · obtain ⟨calls, r, hends⟩ := (Loop.taking p).exists_ends [] c
    exact ⟨calls, r, hends, hends.runs.eq_of_follows (Loop.follows_takeWhileFrom p)⟩
  · obtain ⟨calls, r, hends⟩ := Loop.following.exists_ends (Utf8.encode text) c
    refine ⟨calls, r, hends, ?_⟩
    rw [acceptText_eq_orGoBack, hends.runs.eq_of_follows Loop.follows_follow]
    rfl
  · obtain ⟨calls, r, hends⟩ := Loop.reading.exists_ends (.start rule) c
    exact ⟨calls, r, hends, hends.runs.eq_of_follows Loop.follows_run⟩
  · obtain ⟨calls, r, hends⟩ := Loop.reading.exists_ends (.start .expr) c
    refine ⟨calls, r, hends, ?_⟩
    rw [parseToEnd_eq_thenFinish, parse, hends.runs.eq_of_follows Loop.follows_run]

/-- A seek has failed and has left the head of the source two bytes behind the cursor. They are read
again, and then the end is met, so the bound is reached. -/
theorem loops_end_behind :
    ∃ (c₀ c : Cursor) (calls : List Cursor) (r : EStateM.Result SourceError Cursor (List UInt8)),
      restore (State.after [0x31]) c₀ = .error (.seek 1 (.landedAt 0)) c
        ∧ c.state.position = 2 ∧ c.source.head = 0
        ∧ (Loop.taking Literal.isDigit).Ends [] c calls r ∧ takeWhile Literal.isDigit c = r
        ∧ calls.length = c.source.contents.size - c.source.head + 1 := by
  obtain ⟨c, hc⟩ : ∃ c : Cursor, c =
      { source := { contents := #[0x31, 0x31], faults := { seekLimit := some 0 } }
        state := State.after [0x31, 0x31] } := ⟨_, rfl⟩
  obtain ⟨-, htakes, -⟩ := loops_end c
  obtain ⟨calls, r, hends, htake⟩ := htakes Literal.isDigit
  -- two bytes and the end
  have hruns : ∃ calls' r', (Loop.taking Literal.isDigit).Runs [] c calls' r'
      ∧ calls'.length = 3 := by
    subst hc
    exact ⟨_, _, .advance rfl rfl (.advance rfl rfl (.advance rfl rfl (.stop rfl))), rfl⟩
  obtain ⟨calls', r', hruns, hlength⟩ := hruns
  obtain ⟨rfl, rfl⟩ := hends.only _ _ hruns
  refine ⟨{ c with source := { c.source with head := 2 } }, c, _, _, ?_, ?_, ?_, hends, htake, ?_⟩
  · rw [hc]
    rfl
  · rw [hc]
    rfl
  · rw [hc]
  · rw [hlength, hc]
    rfl

end Cursor

end SeekParse
