import SeekParse.Proofs.Standing
import SeekParse.Proofs.Upkeep

/-!
# A cursor knows where it is

A cursor counts its own position and never asks its source. So two things could come apart: the
position that the state has, and the head of the source. And since a state is a record of words and
numbers, it could say things that no text bears out. A cursor is *steady* if neither has happened.

The only thing that can unsettle it is a seek that fails, because that moves the head and leaves the
state. As long as none has, whatever else fails:

* `history_canon`: the live state and every saved one are states of the text, to the last line
  number and column, and the head is where the live state has it.

The steady states need not be those of the text. Any set of states will do that reading does not
lead out of; the set of all states is one.
-/

namespace SeekParse

/-- Whether a seek has failed. -/
def SourceError.IsSeek : SourceError → Prop
  | .seek .. => True
  | .unusable _ | .read .. => False

namespace Cursor

/-- Reading a text does not lead out of these states. -/
structure Closed (text : List UInt8) (S : State → Prop) : Prop where
  next {s : State} {byte : UInt8} :
    S s → s.isActive = true → text[s.position]? = some byte → S (s.next byte)
  atEnd {s : State} : S s → s.isActive = true → text[s.position]? = none → S s.atEnd

/-- A cursor on this text, in one of these states, with the head where the state has it. -/
structure Steady (text : List UInt8) (S : State → Prop) (c : Cursor) : Prop where
  bytes : c.source.bytes = text
  state : S c.state
  head : c.source.head = c.state.position

variable {text : List UInt8} {S : State → Prop}

/-- A cursor that has gone back is steady, wherever its head was. -/
theorem steady_restore {s : State} {c c' : Cursor} (hbytes : c.source.bytes = text) (hs : S s)
    (h : restore s c = .ok () c') : Steady text S c' := by
  rw [restore_eq] at h
  have halike := Source.alike_seekTo s.position c.source
  cases hseek : Source.seekTo s.position c.source with
  | error e source =>
      rw [hseek] at h
      cases h
  | ok u source =>
      rw [hseek] at h
      cases h
      rw [stateAfter, hseek] at halike
      exact ⟨halike.bytes.trans hbytes, hs, Source.head_of_seekTo hseek⟩

/-- A restore that fails has failed to seek. -/
theorem isSeek_restore {s : State} {e : SourceError} {c c' : Cursor}
    (h : restore s c = .error e c') : e.IsSeek := by
  rw [restore_eq] at h
  cases hseek : Source.seekTo s.position c.source with
  | ok u source =>
      rw [hseek] at h
      cases h
  | error e' source =>
      rw [hseek] at h
      cases h
      obtain ⟨cause, rfl⟩ := Source.error_of_seekTo hseek
      trivial

theorem advance_steady (hS : Closed text S) :
    Keeps (Steady text S) (fun _ => False) advance := by
  intro c hc
  have hbyte : c.source.contents[c.source.head]? = text[c.state.position]? := by
    rw [← hc.bytes, ← hc.head, Source.bytes, Array.getElem?_toList]
  rcases advance_cases c with ⟨-, h⟩ | ⟨-, -, h⟩ | ⟨byte, hactive, hb, h⟩ | ⟨hactive, hb, h⟩
  · rw [h]
    exact hc
  · rw [h]
    exact .inr hc
  · rw [h]
    refine ⟨hc.bytes, hS.next hc.state hactive (by rw [← hbyte, hb]), ?_⟩
    show c.source.head + 1 = c.state.position + 1
    rw [hc.head]
  · rw [h]
    exact ⟨hc.bytes, hS.atEnd hc.state hactive (by rw [← hbyte, hb]), hc.head⟩

theorem slice_steady (first past : Nat) :
    Keeps (Steady text S) SourceError.IsSeek (slice first past) := by
  intro c hc
  rcases Nat.lt_or_ge first past with hlt | hle
  · -- wherever the read has left the head, the seek back puts it right or fails
    rcases slice_cases hlt c with
      ⟨cause, source, h, -⟩ | ⟨source, halike, hhead, ⟨bytes, read, -, h⟩ | ⟨e, read, -, h⟩⟩
    · rw [h]
      exact .inl trivial
    · rw [h]
      exact ⟨halike.bytes.trans hc.bytes, hc.state, hhead⟩
    · rw [h]
      exact .inr ⟨halike.bytes.trans hc.bytes, hc.state, hhead⟩
  · rw [slice_of_le hle]
    exact hc

/-- Only a failed seek unsettles a cursor. -/
theorem upkeep_steady (hS : Closed text S) : Upkeep S (Steady text S) SourceError.IsSeek where
  allowed hc := hc.state
  advance := advance_steady hS
  restore {s} hs := by
    intro c hc
    cases hr : restore s c with
    | ok u c' => exact steady_restore hc.bytes hs hr
    | error e c' => exact .inl (isSeek_restore hr)
  slice := slice_steady

/-- A cursor is steady to begin with, wherever the head of its source was. -/
theorem steady_ofSource (hS : Closed text S) (h0 : S .initial) {source : Source}
    {options : Options} {c : Cursor} (hbytes : source.bytes = text)
    (h : ofSource source options = .ok c) : Steady text S c := by
  rw [ofSource] at h
  cases hrewind : rewind { source, options } with
  | error e c' =>
      rw [hrewind] at h
      cases h
  | ok moved c' =>
      rw [hrewind] at h
      cases h
      cases hrestore : restore .initial ({ source, options } : Cursor) with
      | error e c' =>
          simp only [rewind, bind, EStateM.bind, hrestore] at hrewind
          cases hrewind
      | ok u c₀ =>
          simp only [rewind, bind, EStateM.bind, hrestore] at hrewind
          have hkeep := advance_steady hS c₀ (steady_restore hbytes h0 hrestore)
          rw [hrewind] at hkeep
          exact hkeep

/-! ## The states of a text are closed under reading it -/

/-- Before the first byte, or some way along the text. -/
def OnText (text : List UInt8) (s : State) : Prop :=
  s = .initial ∨ ∃ i, i ≤ text.length ∧ s = .along text i

theorem closed_onText (text : List UInt8) : Closed text (OnText text) where
  next := by
    rintro s byte (rfl | ⟨i, hi, rfl⟩) hactive hbyte
    · exact .inr ⟨0, Nat.zero_le _, State.next_initial hbyte⟩
    · rcases Nat.lt_or_eq_of_le hi with hlt | rfl
      · rw [State.position_along_of_lt hlt] at hbyte
        exact .inr ⟨i + 1, hlt, State.next_along hbyte⟩
      · rw [State.along_of_le (Nat.le_refl _)] at hactive
        cases hactive
  atEnd := by
    rintro s (rfl | ⟨i, hi, rfl⟩) hactive hend
    · exact .inr ⟨0, Nat.zero_le _, State.atEnd_initial hend⟩
    · rcases Nat.lt_or_eq_of_le hi with hlt | rfl
      · rw [State.position_along_of_lt hlt] at hend
        exact .inr ⟨i + 1, hlt, State.atEnd_along hlt hend⟩
      · rw [State.along_of_le (Nat.le_refl _)] at hactive
        cases hactive

theorem canon_of_onText {s : State} (hlen : text.length < UInt32.size) (h : OnText text s) :
    State.Canon text s := by
  rcases h with rfl | ⟨i, hi, rfl⟩
  · exact .initial
  · exact State.canon_along hi hlen

/-! ## Histories -/

/--
What can have happened to a cursor on a text, and the states that were saved on the way.

The source may be any that holds the text, and it may start to fail, or cease to, between any two
requests. A request may be answered by a failure, as long as no seek has failed. The cursor may go
back to states that were saved, and to no others.
-/
inductive History (text : List UInt8) : List State → Cursor → Prop where
  | opened {source : Source} {options : Options} {c : Cursor} :
      source.bytes = text → ofSource source options = .ok c → History text [] c
  | saved {states : List State} {c : Cursor} :
      History text states c → History text (c.state :: states) c
  | controlled {states : List State} {c : Cursor} (faults : Faults) :
      History text states c →
      History text states { c with source := { c.source with faults } }
  | answered {states : List State} {c : Cursor} (r : Request) :
      History text states c → (∀ s, r = .restore s → s ∈ states) →
      (∀ e, (r.answer c).1 = .error (.source e) → ¬ e.IsSeek) →
      History text states (r.answer c).2

/-- A history keeps the cursor steady, and saves only states of the text. -/
theorem steady_history {states : List State} {c : Cursor} (h : History text states c) :
    Steady text (OnText text) c ∧ ∀ s ∈ states, OnText text s := by
  induction h with
  | opened hbytes hopen =>
      exact ⟨steady_ofSource (closed_onText text) (.inl rfl) hbytes hopen, nofun⟩
  | saved _ ih =>
      refine ⟨ih.1, fun s hs => ?_⟩
      rcases List.mem_cons.1 hs with rfl | hs
      · exact ih.1.state
      · exact ih.2 s hs
  | controlled faults _ ih => exact ⟨⟨ih.1.bytes, ih.1.state, ih.1.head⟩, ih.2⟩
  | answered r _ hallowed hseek ih =>
      have hr : ∀ s, r = .restore s → OnText text s := fun s hs => ih.2 s (hallowed s hs)
      rcases (upkeep_steady (closed_onText text)).answer (.inl rfl) hr ih.1 with
        ⟨e, he, hlost⟩ | hsteady
      -- a failure to seek is no part of a history
      · exact absurd hlost (hseek e he)
      · exact ⟨hsteady, ih.2⟩

/--
**A cursor knows where it is.**

Whatever has been asked of a cursor, and however its source has failed to read: as long as no seek
has failed, its state and every state saved on the way are among those that the text has, and the
head of the source is where the state has it.
-/
theorem history_canon {states : List State} {c : Cursor} (hlen : text.length < UInt32.size)
    (h : History text states c) :
    State.Canon text c.state ∧ (∀ s ∈ states, State.Canon text s)
      ∧ c.source.head = c.state.position := by
  obtain ⟨hsteady, hsaved⟩ := steady_history h
  exact ⟨canon_of_onText hlen hsteady.state, fun s hs => canon_of_onText hlen (hsaved s hs),
    hsteady.head⟩

/-- A cursor whose source stops reading on the second line still knows that it is there. -/
theorem history_canon_unreadable :
    ∃ states c, History [0x61, 0x0A, 0x62] states c
      ∧ (Request.peek.answer c).1 = .error (.source (.read 3 .deviceLost))
      ∧ c.state.line = 2
      ∧ State.Canon [0x61, 0x0A, 0x62] c.state
      ∧ (∀ s ∈ states, State.Canon [0x61, 0x0A, 0x62] s)
      ∧ c.source.head = c.state.position := by
  have hopened : History [0x61, 0x0A, 0x62] _ _ :=
    @History.opened _ { contents := #[0x61, 0x0A, 0x62], head := 2 } {} _ rfl rfl
  have hread := (hopened.answered .advance nofun nofun).saved.answered .advance nofun nofun
  have hlost := hread.controlled { unreadableFrom := some 0 }
  have hfailed := hlost.answered .peek nofun (by intro e he; cases he; exact not_false)
  exact ⟨_, _, hfailed, rfl, rfl, history_canon (by decide) hfailed⟩

end Cursor

end SeekParse
