import SeekParse.Proofs.Atomic
import SeekParse.Proofs.Places
import SeekParse.Proofs.Seeks

/-!
# A slice is all of its range

A cursor has no bytes to quote from, so to quote a range of the text it sends its head there and has
it read. Of the range the text may have all, a part or nothing, and that is the only reason for a
slice to be shorter than its range: a read that fails on the way delivers nothing. Then the head is
sent back to where the state has it. It is told where to go, and not how far, so a head that an
earlier seek had left somewhere else ends in its place too.

* `Source.readRange_ok`: what is read of a range, and where that leaves the head.
* `slice_exact`: what this comes to for slices, for excerpts and for the text between two states.
-/

namespace SeekParse

variable {origin first past count : Nat} {taken bytes : List UInt8}

namespace Source

variable {s s' : Source}

/-- What is read up to a count is what there is up to it, and the head has passed just that. -/
theorem readUpTo_ok (h : readUpTo origin count taken s = .ok bytes s') :
    bytes = taken.reverse ++ (s.bytes.drop s.head).take count
      ∧ s'.head = s.head + ((s.bytes.drop s.head).take count).length := by
  induction count generalizing taken s with
  | zero =>
      cases h
      rw [List.take_zero, List.append_nil]
      exact ⟨rfl, rfl⟩
  | succ count ih =>
      simp only [readUpTo, readFrom, bind, EStateM.bind, EStateM.adaptExcept] at h
      rcases s.read_cases with ⟨-, hr⟩ | ⟨byte, hb, hr⟩ | ⟨hb, hr⟩
      · rw [hr] at h
        cases h
      · rw [hr] at h
        obtain ⟨hbytes, hhead⟩ := ih h
        have hget : s.bytes[s.head]? = some byte := by
          rw [Source.bytes, Array.getElem?_toList, hb]
        obtain ⟨hlt, hbyte⟩ := List.getElem?_eq_some_iff.1 hget
        have hdrop : (s.bytes.drop s.head).take (count + 1)
            = byte :: (s.bytes.drop (s.head + 1)).take count := by
          rw [List.drop_eq_getElem_cons hlt, hbyte, List.take_succ_cons]
        rw [hdrop, List.length_cons]
        refine ⟨?_, ?_⟩
        · rw [hbytes, List.reverse_cons, List.append_assoc]
          rfl
        · rw [hhead]
          show s.head + 1 + _ = _
          rw [Nat.add_assoc, Nat.add_comm 1]
          rfl
      · rw [hr] at h
        have hget : s.bytes[s.head]? = none := by
          rw [Source.bytes, Array.getElem?_toList, hb]
        rw [List.drop_eq_nil_iff.2 (List.getElem?_eq_none_iff.1 hget), List.take_nil,
          List.append_nil]
        cases h
        exact ⟨rfl, rfl⟩

/-- An empty range is known without the source. -/
theorem readRange_of_le (h : past ≤ first) (s : Source) : readRange first past s = .ok [] s := by
  rw [readRange, if_pos h]
  rfl

/-- What is read of a range is all that there is of it, and the head is left where that ends. -/
theorem readRange_ok (hlt : first < past) (h : readRange first past s = .ok bytes s') :
    bytes = s.bytes.extract first past ∧ s'.head = max first (min past s.bytes.length) := by
  have halike := alike_seekTo first s
  rw [readRange, if_neg (Nat.not_le.2 hlt)] at h
  obtain ⟨_, s₁, hseek, hread⟩ := ok_of_bind h
  rw [stateAfter, hseek] at halike
  obtain ⟨hbytes, hhead⟩ := readUpTo_ok hread
  rw [head_of_seekTo hseek, halike.bytes] at hbytes hhead
  refine ⟨by rw [hbytes, List.extract_eq_take_drop]; rfl, ?_⟩
  rw [hhead, List.length_take, List.length_drop]
  omega

end Source

namespace Cursor

variable {c c' : Cursor}

/-! ## What a slice comes to -/

/-- A slice is all that the text has of a range, and the head is back from it. -/
theorem slice_ok (h : slice first past c = .ok bytes c') :
    bytes = c.source.bytes.extract first past
      ∧ (first < past → c'.source.head = c.state.position) := by
  rcases Nat.lt_or_ge first past with hlt | hle
  · rcases slice_cases hlt c with
      ⟨cause, source, hr, -⟩ | ⟨source, -, hhead, ⟨found, read, hread, hr⟩ | ⟨e, read, -, hr⟩⟩
    · rw [hr] at h
      cases h
    · rw [hr] at h
      cases h
      exact ⟨(Source.readRange_ok hlt hread).1, fun _ => hhead⟩
    · rw [hr] at h
      cases h
  · rw [slice_of_le hle] at h
    cases h
    refine ⟨?_, fun hlt => absurd hlt (Nat.not_lt.2 hle)⟩
    rw [List.extract_eq_take_drop, Nat.sub_eq_zero_of_le hle, List.take_zero]

/-- The head is back also from a slice that could not be read. -/
theorem head_of_slice_error {e : SourceError} (h : slice first past c = .error e c')
    (he : e.IsRead) : c'.source.head = c.state.position := by
  rcases Nat.lt_or_ge first past with hlt | hle
  · rcases slice_cases hlt c with
      ⟨cause, source, hr, -⟩ | ⟨source, -, hhead, ⟨found, read, -, hr⟩ | ⟨e', read, -, hr⟩⟩
    · rw [hr] at h
      cases h
      exact he.elim
    · rw [hr] at h
      cases h
    · rw [hr] at h
      cases h
      exact hhead
  · rw [slice_of_le hle] at h
    cases h

/-- Whatever comes of a slice, the cursor stands where it stood. -/
theorem state_slice (first past : Nat) (c : Cursor) :
    (stateAfter (slice first past) c).state = c.state := by
  rw [stateAfter]
  rcases Nat.lt_or_ge first past with hlt | hle
  · rcases slice_cases hlt c with
      ⟨cause, source, hr, -⟩ | ⟨source, -, -, ⟨found, read, -, hr⟩ | ⟨e, read, -, hr⟩⟩
    · rw [hr]
    · rw [hr]
    · rw [hr]
  · rw [slice_of_le hle]

/-! ## On a source that does not fail -/

section Sound

variable (hc : c.source.faults = {})

include hc

theorem slice_sound (first past : Nat) :
    ∃ c', slice first past c = .ok (c.source.bytes.extract first past) c' := by
  obtain ⟨bytes, c', h, -⟩ := (needs_slice hc first past).exists_ok hc
  obtain ⟨rfl, -⟩ := slice_ok h
  exact ⟨c', h⟩

theorem excerpt_sound (width : Nat) :
    ∃ c', excerpt width c
      = .ok (oneLine ((c.source.bytes.drop c.state.offset).take width)) c' := by
  obtain ⟨c', h⟩ := slice_sound hc c.state.offset (c.state.offset + width)
  refine ⟨c', ?_⟩
  rw [excerpt_eq, h, List.extract_eq_take_drop, Nat.add_sub_cancel_left]

theorem readRange_sound (first past : Nat) :
    ∃ source, Source.readRange first past c.source
      = .ok (c.source.bytes.extract first past) source := by
  rcases Nat.lt_or_ge first past with hlt | hle
  · obtain ⟨c', h⟩ := slice_sound hc first past
    rcases slice_cases hlt c with
      ⟨cause, source, hr, -⟩ | ⟨source, -, -, ⟨found, read, hread, hr⟩ | ⟨e, read, -, hr⟩⟩
    · rw [hr] at h
      cases h
    · rw [hr] at h
      cases h
      exact ⟨read, hread⟩
    · rw [hr] at h
      cases h
  · refine ⟨c.source, ?_⟩
    rw [Source.readRange_of_le hle, List.extract_eq_take_drop, Nat.sub_eq_zero_of_le hle,
      List.take_zero]

/-- Between two states lie the bytes from the one that the first stands on through the one that the
second stands on, by their offsets. -/
theorem between_sound (a b : State) :
    ∃ c', between a b c
      = .ok (c.source.bytes.extract (max a.lastOffset 0).toNat (b.lastOffset + 1).toNat) c' := by
  have hfirst : (max a.lastOffset 0).toNat = a.position - 1 := by
    rw [State.lastOffset]
    omega
  have hpast : (b.lastOffset + 1).toNat = b.position := by
    rw [State.lastOffset]
    omega
  rw [hfirst, hpast]
  exact slice_sound hc (a.position - 1) b.position

end Sound

/-! ## The main result -/

/-- The byte that a state was read up to is one of the text, if there is one. -/
theorem lastOffset_lt_of_onText {text : List UInt8} {s : State} (h : OnText text s) :
    s.lastOffset < text.length := by
  have hposition : s.position ≤ text.length := by
    rcases h with rfl | ⟨i, hi, rfl⟩
    · exact Nat.zero_le _
    · rcases Nat.lt_or_eq_of_le hi with hlt | rfl
      · rw [State.position_along_of_lt hlt]
        exact hlt
      · rw [State.along_of_le (Nat.le_refl _)]
        exact Nat.le_of_eq (State.position_after text)
  rw [State.lastOffset]
  omega

/-- A range has no bytes in a text only if it is empty, or starts past the end. -/
theorem extract_eq_nil_iff (text : List UInt8) (first past : Nat) :
    text.extract first past = [] ↔ past ≤ first ∨ text.length ≤ first := by
  rw [List.extract_eq_take_drop, List.take_eq_nil_iff, List.drop_eq_nil_iff, Nat.sub_eq_zero_iff_le]

/-- To count an excerpt's end no further than the largest word cuts nothing off. -/
theorem extract_min_word {text : List UInt8} (hlen : text.length < UInt32.size) (first past : Nat) :
    text.extract first (min past (UInt64.size - 1)) = text.extract first past := by
  have hword : text.length ≤ UInt64.size - 1 :=
    Nat.le_trans (Nat.le_of_lt hlen) (show UInt32.size ≤ UInt64.size - 1 by decide)
  rw [← extract_min, Nat.min_assoc, Nat.min_eq_right hword, extract_min]

/--
**A slice is all of its range, and nobody notices it.**

Of any cursor, wherever its head is and however its source fails: a slice that is delivered has all
the bytes that the text has in its range, and however it ends, the state is what it was. The head is
back where the state has it, if the slice was delivered or could not be read. To read the range
without a cursor delivers the same bytes, and leaves the head where they end.

On a source that does not fail, both are delivered. An excerpt is then as many bytes as it is wide,
from what the cursor stands on; it may be any width, since to stop counting at the largest word cuts
nothing off. Between two states that the cursor has been in lie the bytes from the offset of the
first through the offset of the second, all of which the text has.
-/
theorem slice_exact (c : Cursor) (first past : Nat) :
    (∀ bytes c', slice first past c = .ok bytes c' →
        bytes = c.source.bytes.extract first (min past c.source.bytes.length)
          ∧ (bytes = [] ↔ past ≤ first ∨ c.source.bytes.length ≤ first)
          ∧ (first < past → c'.source.head = c.state.position))
      ∧ (stateAfter (slice first past) c).state = c.state
      ∧ (∀ e c', slice first past c = .error e c' → e.IsRead →
          c'.source.head = c.state.position)
      ∧ (∀ bytes source, Source.readRange first past c.source = .ok bytes source →
          bytes = c.source.bytes.extract first (min past c.source.bytes.length)
            ∧ (first < past → source.head = max first (min past c.source.bytes.length)))
      ∧ (c.source.faults = {} → c.source.bytes.length < UInt32.size →
          (∃ c', slice first past c = .ok (c.source.bytes.extract first past) c')
            ∧ (∃ source, Source.readRange first past c.source
                = .ok (c.source.bytes.extract first past) source)
            ∧ (∀ width, ∃ c', excerpt width c
                = .ok (oneLine ((c.source.bytes.drop c.state.offset).take width)) c')
            ∧ (∀ width, ∃ c',
                slice c.state.offset (min (c.state.offset + width) (UInt64.size - 1)) c
                  = .ok ((c.source.bytes.drop c.state.offset).take width) c')
            ∧ ∀ states, History c.source.bytes states c → ∀ a ∈ states, ∀ b ∈ states,
                b.lastOffset < c.source.bytes.length
                  ∧ ∃ c', between a b c
                    = .ok (c.source.bytes.extract (max a.lastOffset 0).toNat
                        (b.lastOffset + 1).toNat) c') := by
  refine ⟨?_, state_slice first past c, fun e c' => head_of_slice_error, ?_, fun hc hlen => ?_⟩
  · intro bytes c' h
    obtain ⟨rfl, hhead⟩ := slice_ok h
    exact ⟨(extract_min _ _ _).symm, extract_eq_nil_iff _ first past, hhead⟩
  · intro bytes source h
    rw [extract_min]
    rcases Nat.lt_or_ge first past with hlt | hle
    · obtain ⟨hbytes, hhead⟩ := Source.readRange_ok hlt h
      exact ⟨hbytes, fun _ => hhead⟩
    · rw [Source.readRange_of_le hle] at h
      cases h
      exact ⟨((extract_eq_nil_iff _ first past).2 (.inl hle)).symm,
        fun hlt => absurd hlt (Nat.not_lt.2 hle)⟩
  refine ⟨slice_sound hc first past, readRange_sound hc first past, excerpt_sound hc, ?_, ?_⟩
  · intro width
    obtain ⟨c', h⟩ :=
      slice_sound hc c.state.offset (min (c.state.offset + width) (UInt64.size - 1))
    rw [extract_min_word hlen, List.extract_eq_take_drop, Nat.add_sub_cancel_left] at h
    exact ⟨c', h⟩
  · intro states hhistory a _ b hb
    obtain ⟨-, hsaved⟩ := steady_history hhistory
    exact ⟨lastOffset_lt_of_onText (hsaved b hb), between_sound hc a b⟩

/-- The head has been left at the start of `ab\nc`, and the cursor stands on the line feed. -/
theorem slice_exact_displaced :
    ∃ c : Cursor, c.source.head = 0 ∧ c.state.position = 3
      ∧ (∃ c', slice 1 9 c = .ok [0x62, 0x0A, 0x63] c' ∧ c'.source.head = 3)
      ∧ (∃ source, Source.readRange 1 9 c.source = .ok [0x62, 0x0A, 0x63] source
          ∧ source.head = 4)
      ∧ (∃ c', excerpt (UInt64.size - 1) c = .ok "\\nc" c')
      ∧ (∃ e c', slice 1 9 (c.under { unreadableFrom := some 2 }) = .error e c'
          ∧ c'.state = c.state ∧ c'.source.head = 3)
      ∧ ∃ states h, History [0x61, 0x62, 0x0A, 0x63] states h ∧ ∃ a ∈ states, ∃ b ∈ states,
          a.lastOffset = 0 ∧ b.lastOffset = 1
            ∧ ∃ c', between a b h = .ok [0x61, 0x62] c' := by
  obtain ⟨hslice, -, -, hrange, hmemory⟩ := slice_exact
    { along [0x61, 0x62, 0x0A, 0x63] {} 2 with source := .ofBytes [0x61, 0x62, 0x0A, 0x63] } 1 9
  obtain ⟨⟨c₁, h₁⟩, ⟨source, h₂⟩, hexcerpt, -⟩ := hmemory rfl (by decide)
  obtain ⟨c₂, h₃⟩ := hexcerpt (UInt64.size - 1)
  obtain ⟨-, hstate, hback, -⟩ := slice_exact
    (Cursor.under
      { along [0x61, 0x62, 0x0A, 0x63] {} 2 with source := .ofBytes [0x61, 0x62, 0x0A, 0x63] }
      { unreadableFrom := some 2 }) 1 9
  refine ⟨_, rfl, rfl, ⟨c₁, h₁, (hslice _ _ h₁).2.2 (by decide)⟩,
    ⟨source, h₂, (hrange _ _ h₂).2 (by decide)⟩, ⟨c₂, h₃⟩,
    ⟨.read 1 .deviceLost, _, rfl, hstate, hback _ _ rfl trivial⟩, ?_⟩
  have hopened : History [0x61, 0x62, 0x0A, 0x63] [] (along [0x61, 0x62, 0x0A, 0x63] {} 0) :=
    .opened rfl (ofSource_ofBytes _ {})
  have hsaved := (hopened.saved.answered .advance nofun nofun).saved
  obtain ⟨-, -, -, -, hmemory⟩ :=
    slice_exact (Request.advance.answer (along [0x61, 0x62, 0x0A, 0x63] {} 0)).2 0 0
  obtain ⟨-, -, -, -, hbetween⟩ := hmemory rfl (by decide)
  obtain ⟨-, c₃, h₄⟩ := hbetween _ hsaved _ (.tail _ (.head _)) _ (.head _)
  exact ⟨_, _, hsaved, _, .tail _ (.head _), _, .head _, rfl, rfl, c₃, h₄⟩

end Cursor

end SeekParse
