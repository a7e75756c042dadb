import Mathlib.Logic.Relation
import SeekParse.Proofs.Standing
import SeekParse.Proofs.Outcome

/-!
# Reading a text in memory

A source in memory never fails, so a cursor on it is its text and how far along it has come. In
`Cursor.along` that is all there is, and each operation of a cursor is an equation between two of
these. A machine run by such a cursor reads no state that the text does not determine: a `Reading`
is a machine and an offset, and `Move` is what one step of the machine makes of it.

* `exists_stops`, `Stops.run_eq`: running the machine is moving until it stops. It always does, and
  never because of the source.
* `Stops.congr`: a machine has seen nothing of the text past the byte it stands on, so it stops
  alike on any two texts that agree that far.
-/

namespace SeekParse

/-! ## A source in memory -/

namespace Source

/-- Bytes in memory, with the head at an offset. -/
def ofBytesAt (text : List UInt8) (head : Nat) : Source := { ofBytes text with head }

variable {text : List UInt8}

theorem read_ofBytesAt (head : Nat) :
    (ofBytesAt text head).read =
      match text[head]? with
      | some byte => .ok (some byte) (ofBytesAt text (head + 1))
      | none => .ok none (ofBytesAt text head) := by
  have hget : (ofBytesAt text head).contents[head]? = text[head]? := by
    rw [ofBytesAt, ofBytes, List.getElem?_toArray]
  rcases read_cases (ofBytesAt text head) with ⟨hf, -⟩ | ⟨byte, hb, hr⟩ | ⟨hb, hr⟩
  · cases hf
  · rw [hr, ← hget, show (ofBytesAt text head).contents[head]? = some byte from hb]
    rfl
  · rw [hr, ← hget, show (ofBytesAt text head).contents[head]? = none from hb]

theorem seekTo_ofBytesAt (head offset : Nat) :
    seekTo offset (ofBytesAt text head) = .ok () (ofBytesAt text offset) := by
  rw [seekTo_eq, if_neg nofun]
  exact if_pos rfl

theorem readUpTo_ofBytesAt (text : List UInt8) (origin count : Nat) (taken : List UInt8)
    (head : Nat) :
    ∃ head', readUpTo origin count taken (ofBytesAt text head) =
      .ok (taken.reverse ++ (text.drop head).take count) (ofBytesAt text head') := by
  induction count generalizing taken head with
  | zero => exact ⟨head, by rw [List.take_zero, List.append_nil]; rfl⟩
  | succ count ih =>
      simp only [readUpTo, readFrom, bind, EStateM.bind, EStateM.adaptExcept, read_ofBytesAt]
      cases h : text[head]? with
      | none =>
          have hdrop : text.drop head = [] := List.drop_eq_nil_iff.2 (List.getElem?_eq_none_iff.1 h)
          exact ⟨head, by rw [hdrop, List.take_nil, List.append_nil]; rfl⟩
      | some byte =>
          obtain ⟨hlt, hbyte⟩ := List.getElem?_eq_some_iff.1 h
          obtain ⟨head', hrest⟩ := ih (byte :: taken) (head + 1)
          have hdrop : text.drop head = byte :: text.drop (head + 1) := by
            rw [List.drop_eq_getElem_cons hlt, hbyte]
          refine ⟨head', hrest.trans ?_⟩
          rw [hdrop, List.take_succ_cons, List.reverse_cons, List.append_assoc]
          rfl

theorem readRange_ofBytesAt (text : List UInt8) {first past : Nat} (h : first < past) (head : Nat) :
    ∃ head', readRange first past (ofBytesAt text head) =
      .ok (text.extract first past) (ofBytesAt text head') := by
  obtain ⟨head', hread⟩ := readUpTo_ofBytesAt text first (past - first) [] first
  refine ⟨head', ?_⟩
  simp only [readRange, if_neg (Nat.not_le.2 h), bind, EStateM.bind, seekTo_ofBytesAt]
  exact hread

end Source

/-! ## A cursor on a text in memory -/

namespace Cursor

variable {text : List UInt8} {options : Options}

/-- A cursor on a text in memory, in this state. -/
def inMemory (text : List UInt8) (options : Options) (s : State) : Cursor where
  source := Source.ofBytesAt text s.position
  state := s
  options := options

/-- A cursor that has come this far along a text in memory. -/
def along (text : List UInt8) (options : Options) (i : Nat) : Cursor :=
  inMemory text options (State.along text i)

theorem advance_inMemory (text : List UInt8) (options : Options) {s : State}
    (hs : s.isActive = true) :
    advance (inMemory text options s) =
      match text[s.position]? with
      | some byte => .ok true (inMemory text options (s.next byte))
      | none => .ok false (inMemory text options s.atEnd) := by
  rw [advance, if_pos (show (inMemory text options s).state.isActive = true from hs),
    show (inMemory text options s).source = .ofBytesAt text s.position from rfl,
    Source.read_ofBytesAt]
  cases text[s.position]? with
  | some byte => rfl
  | none => rfl

/-- Wherever the head was, it is put where the state has it. -/
theorem restore_ofBytesAt (text : List UInt8) (head : Nat) (options : Options) (s s' : State) :
    restore s { source := .ofBytesAt text head, state := s', options }
      = .ok () (inMemory text options s) := by
  rw [restore_eq, Source.seekTo_ofBytesAt]
  rfl

theorem restore_inMemory (text : List UInt8) (options : Options) (s s' : State) :
    restore s (inMemory text options s') = .ok () (inMemory text options s) :=
  restore_ofBytesAt text s'.position options s s'

theorem slice_inMemory (text : List UInt8) (options : Options) (first past : Nat) (s : State) :
    slice first past (inMemory text options s) =
      .ok (text.extract first past) (inMemory text options s) := by
  rcases Nat.lt_or_ge first past with hlt | hle
  · obtain ⟨head, hread⟩ := Source.readRange_ofBytesAt text hlt s.position
    rw [slice_eq hlt, stateAfter, inMemory, hread]
    dsimp only
    rw [Source.seekTo_ofBytesAt]
  · rw [slice_of_le hle]
    have hempty : text.extract first past = [] := by
      rw [List.extract_eq_take_drop, Nat.sub_eq_zero_of_le hle, List.take_zero]
    rw [hempty]

theorem advance_along (options : Options) {i : Nat} (hi : i < text.length) :
    ∃ moved, advance (along text options i) = .ok moved (along text options (i + 1)) := by
  rw [along, advance_inMemory _ _ (State.isActive_along_of_lt hi), State.position_along_of_lt hi]
  cases h : text[i + 1]? with
  | some byte =>
      dsimp only
      exact ⟨true, by rw [State.next_along h, along]⟩
  | none =>
      dsimp only
      exact ⟨false, by rw [State.atEnd_along hi h, along]⟩

/-- To rewind is to go to the first byte, wherever the head was. -/
theorem rewind_ofBytesAt (text : List UInt8) (head : Nat) (options : Options) :
    ∃ moved, rewind { source := .ofBytesAt text head, options }
      = .ok moved (along text options 0) := by
  have hrestore := restore_ofBytesAt text head options .initial .initial
  have hadvance := advance_inMemory text options (s := .initial) rfl
  rw [show State.initial.position = 0 from rfl] at hadvance
  cases h : text[0]? with
  | some byte =>
      rw [h] at hadvance
      dsimp only at hadvance
      rw [State.next_initial h] at hadvance
      refine ⟨true, ?_⟩
      simp only [rewind, bind, EStateM.bind, hrestore, hadvance]
      rfl
  | none =>
      rw [h] at hadvance
      dsimp only at hadvance
      rw [State.atEnd_initial h] at hadvance
      refine ⟨false, ?_⟩
      simp only [rewind, bind, EStateM.bind, hrestore, hadvance]
      rfl

/-- A cursor in memory starts on the first byte. -/
theorem ofSource_ofBytes (text : List UInt8) (options : Options) :
    ofSource (.ofBytes text) options = .ok (along text options 0) := by
  obtain ⟨moved, hrewind⟩ := rewind_ofBytesAt text 0 options
  have hstart : Source.ofBytesAt text 0 = .ofBytes text := rfl
  rw [hstart] at hrewind
  rw [ofSource, hrewind]

/-! ## Reporting -/

theorem excerpt_along (options : Options) {i : Nat} (hi : i ≤ text.length) (width : Nat) :
    excerpt width (along text options i)
      = .ok (oneLine (text.extract i (i + width))) (along text options i) := by
  have hoffset : (along text options i).state.offset = i := State.offset_along hi
  rw [excerpt_eq, hoffset, along, slice_inMemory]

theorem diagnose_along (options : Options) {i : Nat} (hi : i ≤ text.length) (code : ErrorCode)
    (message : String) :
    diagnose code message (along text options i)
      = .ok { code
              message
              location := (State.along text i).location
              excerpt := some (oneLine (text.extract i (i + options.excerptWidth))) }
          (along text options i) := by
  have hwidth : (along text options i).options.excerptWidth = options.excerptWidth := rfl
  rw [diagnose_eq, hwidth, excerpt_along options hi]
  rfl

end Cursor

/-- What is said of a mismatch at an offset of a text. -/
def Mismatch.diagnosticAt (mismatch : Mismatch) (text : List UInt8) (options : Cursor.Options)
    (i : Nat) : Diagnostic :=
  mismatch.help.foldl Diagnostic.withHelp
    { code := mismatch.code
      message := mismatch.message
      location := (Cursor.State.along text i).location
      excerpt := some (oneLine (text.extract i (i + options.excerptWidth))) }

/-- Notes change nothing else about a diagnostic. -/
theorem Diagnostic.foldl_withHelp (notes : List String) (d : Diagnostic) :
    notes.foldl withHelp d = { d with help := d.help ++ notes } := by
  induction notes generalizing d with
  | nil => rw [List.foldl_nil, List.append_nil]
  | cons note notes ih =>
      rw [List.foldl_cons, ih, withHelp, List.append_assoc]
      rfl

theorem Mismatch.code_diagnosticAt (mismatch : Mismatch) (text : List UInt8)
    (options : Cursor.Options) (i : Nat) :
    (mismatch.diagnosticAt text options i).code = mismatch.code := by
  rw [diagnosticAt, Diagnostic.foldl_withHelp]

namespace Cursor

variable {text : List UInt8} {options : Options}

theorem report_along {α : Type} (mismatch : Mismatch) {i : Nat} (hi : i ≤ text.length) :
    (report mismatch : ParseM α) (along text options i) =
      .error (.mismatch (mismatch.diagnosticAt text options i)) (along text options i) := by
  simp only [report, bind, EStateM.bind, liftM_eq, diagnose_along options hi]
  rfl

theorem reportAt_along {α : Type} (mismatch : Mismatch) (i : Nat) {j : Nat}
    (hj : j ≤ text.length) :
    (reportAt mismatch (some (State.along text j)) : ParseM α) (along text options i) =
      .error (.mismatch (mismatch.diagnosticAt text options j)) (along text options j) := by
  simp only [reportAt, bind, EStateM.bind, liftM_eq, along, restore_inMemory]
  exact report_along mismatch hj

end Cursor

/-! ## A machine on a text in memory -/

/-- A machine, and how far along a text it has come. -/
structure Reading where
  machine : Machine
  offset : Nat

namespace Reading

/-- What the machine does next where it is. -/
def step (text : List UInt8) (r : Reading) : Step :=
  r.machine.step (Cursor.State.along text r.offset)

/-- One move of a reading: a byte taken, or none. -/
inductive Move (text : List UInt8) : Reading → Reading → Prop where
  | take {m next : Machine} {i : Nat} :
      step text ⟨m, i⟩ = .take next → Move text ⟨m, i⟩ ⟨next, i + 1⟩
  | turn {m next : Machine} {i : Nat} :
      step text ⟨m, i⟩ = .turn next → Move text ⟨m, i⟩ ⟨next, i⟩

/-- Any number of moves. -/
def Moves (text : List UInt8) : Reading → Reading → Prop :=
  Relation.ReflTransGen (Move text)

/-- A machine that neither takes a byte nor goes on without one. -/
inductive Stopped (text : List UInt8) (r : Reading) : Prop where
  | accept {e : Expr} : r.step text = .accept e → Stopped text r
  | reject {mismatch : Mismatch} {site : Option Cursor.State} :
      r.step text = .reject mismatch site → Stopped text r

/-- Where a machine comes to in the end. -/
structure Stops (text : List UInt8) (r r' : Reading) : Prop where
  moves : Moves text r r'
  stopped : Stopped text r'

variable {text text' : List UInt8} {options : Cursor.Options}

/-- A byte is taken only where the text has one. -/
theorem lt_of_take {r : Reading} {next : Machine} (h : r.step text = .take next) :
    r.offset < text.length := by
  have hactive := Machine.isActive_of_take h
  rcases Nat.lt_or_ge r.offset text.length with hlt | hge
  · exact hlt
  · rw [Cursor.State.along_of_le hge] at hactive
    cases hactive

theorem Move.offset_le {r r' : Reading} (h : Move text r r') : r.offset ≤ r'.offset := by
  cases h with
  | take _ => exact Nat.le_succ _
  | turn _ => exact Nat.le_refl _

theorem Move.unique {r r₁ r₂ : Reading} (h₁ : Move text r r₁) (h₂ : Move text r r₂) : r₁ = r₂ := by
  cases h₁ with
  | take hstep₁ =>
      cases h₂ with
      | take hstep₂ =>
          rw [hstep₁] at hstep₂
          cases hstep₂
          rfl
      | turn hstep₂ =>
          rw [hstep₁] at hstep₂
          cases hstep₂
  | turn hstep₁ =>
      cases h₂ with
      | take hstep₂ =>
          rw [hstep₁] at hstep₂
          cases hstep₂
      | turn hstep₂ =>
          rw [hstep₁] at hstep₂
          cases hstep₂
          rfl

theorem Stopped.not_move {r r' : Reading} (h : Stopped text r) : ¬ Move text r r' := by
  intro hmove
  cases hmove with
  | take hstep =>
      cases h with
      | accept h => rw [hstep] at h; cases h
      | reject h => rw [hstep] at h; cases h
  | turn hstep =>
      cases h with
      | accept h => rw [hstep] at h; cases h
      | reject h => rw [hstep] at h; cases h

/-- A machine stops in one place. -/
theorem Stops.unique {r r₁ r₂ : Reading} (h₁ : Stops text r r₁) (h₂ : Stops text r r₂) :
    r₁ = r₂ := by
  have hunique : Relator.RightUnique (Move text) := fun _ _ _ => Move.unique
  rcases Relation.ReflTransGen.total_of_right_unique hunique h₁.moves h₂.moves with h | h
  · rcases h.cases_head with heq | ⟨r', hmove, -⟩
    · exact heq
    · exact absurd hmove h₁.stopped.not_move
  · rcases h.cases_head with heq | ⟨r', hmove, -⟩
    · exact heq.symm
    · exact absurd hmove h₂.stopped.not_move

/-- A run goes on from a move as it would have gone on from there. -/
theorem Move.run_eq {r r' : Reading} (h : Move text r r') (options : Cursor.Options) :
    Cursor.run r.machine (Cursor.along text options r.offset) =
      Cursor.run r'.machine (Cursor.along text options r'.offset) := by
  cases h with
  | @take m next i hstep =>
      obtain ⟨moved, hadvance⟩ := Cursor.advance_along options (lt_of_take hstep)
      rw [Cursor.run_eq, show m.step (Cursor.along text options i).state = .take next from hstep]
      dsimp only
      rw [hadvance]
  | @turn m next i hstep =>
      rw [Cursor.run_eq, show m.step (Cursor.along text options i).state = .turn next from hstep]

theorem Moves.run_eq {r r' : Reading} (h : Moves text r r') (options : Cursor.Options) :
    Cursor.run r.machine (Cursor.along text options r.offset) =
      Cursor.run r'.machine (Cursor.along text options r'.offset) := by
  induction h with
  | refl => rfl
  | tail _ hmove ih => exact ih.trans (hmove.run_eq options)

/-- Every machine stops. -/
theorem exists_stops (text : List UInt8) (r : Reading) : ∃ r', Stops text r r' := by
  obtain ⟨m, i⟩ := r
  -- along the run of a cursor, which has been shown to end
  obtain ⟨c, hc⟩ : ∃ c : Cursor, c = Cursor.along text {} i := ⟨_, rfl⟩
  induction m, c using Cursor.run.induct generalizing i with
  | case1 m c e hstep =>
      subst hc
      exact ⟨⟨m, i⟩, .refl, .accept hstep⟩
  | case2 m c mismatch site hstep =>
      subst hc
      exact ⟨⟨m, i⟩, .refl, .reject hstep⟩
  | case3 m c next hstep ih =>
      obtain ⟨r', hstops⟩ := ih i hc
      subst hc
      exact ⟨r', hstops.moves.head (.turn hstep), hstops.stopped⟩
  | case4 m c next hstep moved c' hadvance ih =>
      subst hc
      obtain ⟨moved', hadvance'⟩ := Cursor.advance_along {}
        (lt_of_take (r := ⟨m, i⟩) hstep)
      rw [hadvance'] at hadvance
      cases hadvance
      obtain ⟨r', hstops⟩ := ih (i + 1) rfl
      exact ⟨r', hstops.moves.head (.take hstep), hstops.stopped⟩
  | case5 m c next hstep e c' hadvance =>
      subst hc
      obtain ⟨moved', hadvance'⟩ := Cursor.advance_along {}
        (lt_of_take (r := ⟨m, i⟩) hstep)
      rw [hadvance'] at hadvance
      cases hadvance

/-- **A run of the machine moves until it stops**, and then does as the last step says. -/
theorem Stops.run_eq {r r' : Reading} (h : Stops text r r') (options : Cursor.Options) :
    (∃ e, r'.step text = .accept e
        ∧ Cursor.run r.machine (Cursor.along text options r.offset)
          = .ok e (Cursor.along text options r'.offset))
      ∨ ∃ mismatch site, r'.step text = .reject mismatch site
        ∧ Cursor.run r.machine (Cursor.along text options r.offset)
          = Cursor.reportAt mismatch site (Cursor.along text options r'.offset) := by
  rw [h.moves.run_eq, Cursor.run_eq]
  cases h.stopped with
  | @accept e hstep =>
      refine .inl ⟨e, hstep, ?_⟩
      rw [show r'.machine.step (Cursor.along text options r'.offset).state = .accept e from hstep]
  | @reject mismatch site hstep =>
      refine .inr ⟨mismatch, site, hstep, ?_⟩
      rw [show r'.machine.step (Cursor.along text options r'.offset).state
        = .reject mismatch site from hstep]

/-! ## What a machine has seen -/

theorem step_congr {r : Reading} {k : Nat} (hr : r.offset ≤ k) (hk : k < text.length)
    (h : text.take (k + 1) = text'.take (k + 1)) : r.step text = r.step text' := by
  rw [step, step, Cursor.State.along_congr hr hk h]

/-- **A machine moves alike on texts that agree up to a byte**, as long as it does not come past
that byte. -/
theorem moves_congr {r r' : Reading} {k : Nat} (hmoves : Moves text r r') (hr' : r'.offset ≤ k)
    (hk : k < text.length) (h : text.take (k + 1) = text'.take (k + 1)) : Moves text' r r' := by
  induction hmoves with
  | refl => exact .refl
  | tail _ hmove ih =>
      -- offsets only grow, so the moves before have not come past the byte either
      refine (ih (Nat.le_trans hmove.offset_le hr')).tail ?_
      cases hmove with
      | @take m next i hstep =>
          have hi : i ≤ k := Nat.le_trans (Nat.le_succ i) hr'
          exact .take ((step_congr (r := ⟨m, i⟩) hi hk h).symm.trans hstep)
      | @turn m next i hstep =>
          exact .turn ((step_congr (r := ⟨m, i⟩) hr' hk h).symm.trans hstep)

/-- Where a machine stops on a byte, it stops in every text that begins the same, that byte
included. -/
theorem Stops.congr {r r' : Reading} (h : Stops text r r') (hlt : r'.offset < text.length)
    (hsame : text.take (r'.offset + 1) = text'.take (r'.offset + 1)) : Stops text' r r' := by
  have hstep := step_congr (Nat.le_refl r'.offset) hlt hsame
  refine ⟨moves_congr h.moves (Nat.le_refl _) hlt hsame, ?_⟩
  cases h.stopped with
  | accept haccept => exact .accept (hstep.symm.trans haccept)
  | reject hreject => exact .reject (hstep.symm.trans hreject)

end Reading

end SeekParse
