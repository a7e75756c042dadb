import Mathlib.Data.List.TakeWhile
import SeekParse.Proofs.Atomic
import SeekParse.Proofs.Printing
import SeekParse.Proofs.Runs

/-!
# Lexemes are parts of the text

A cursor takes a text by comparing it to the byte that it stands on, byte by byte, and stepping on
each time. The last of these steps may meet the end, and still the text has been taken. It takes a
run in the same way, and collects the bytes that it has stood on. Neither looks at the input as a
whole; in memory both can be said of the text as a whole all the same. A text is taken exactly where
it is a prefix of what is left, and a run is the longest prefix of what is left that suits.

This needs a cursor that has read a byte, or has met the end. One in memory always has, whatever it
has been asked (`reached_along`): the only state in which nothing has been read is the one before
the first byte, and a rewind passes through it without stopping there.

* `acceptText_iff_isPrefix`: which texts are taken, where that leads, and that texts can be taken in
  parts.
* `takeWhile_longest`: which run is taken, and that it is the text between the two states.
-/

namespace SeekParse.Cursor

variable {text own : List UInt8} {i : Nat} {c : Cursor}

/-! ## Cursors that have been used -/

theorem advance_along_length (text : List UInt8) (options : Options) :
    advance (along text options text.length) = .ok false (along text options text.length) := by
  have hend : ¬ (along text options text.length).state.isActive = true := by
    rw [show (along text options text.length).state = .along text text.length from rfl,
      State.isActive_along_iff]
    exact Nat.lt_irrefl _
  rw [advance, if_neg hend]

theorem rewind_along (text : List UInt8) (options : Options) (i : Nat) :
    ∃ moved, rewind (along text options i) = .ok moved (along text options 0) := by
  obtain ⟨moved, hrewind⟩ := rewind_ofBytesAt text 0 options
  refine ⟨moved, ?_⟩
  -- where the cursor was is forgotten by the restore that comes first
  simp only [rewind, bind, EStateM.bind, restore_ofBytesAt] at hrewind
  simp only [rewind, bind, EStateM.bind, along, restore_inMemory]
  exact hrewind

/-- No request leads a cursor in memory anywhere but along its text. -/
theorem upkeep_along (text : List UInt8) (options : Options) :
    Upkeep (fun s => ∃ i, i ≤ text.length ∧ s = .along text i)
      (fun c => ∃ i, i ≤ text.length ∧ c = along text options i) (fun _ => False) where
  allowed := by
    rintro c ⟨i, hi, rfl⟩
    exact ⟨i, hi, rfl⟩
  advance := by
    rintro c ⟨i, hi, rfl⟩
    rcases Nat.lt_or_eq_of_le hi with hlt | rfl
    · obtain ⟨moved, hadvance⟩ := advance_along options hlt
      rw [hadvance]
      exact ⟨i + 1, hlt, rfl⟩
    · rw [advance_along_length]
      exact ⟨text.length, hi, rfl⟩
  restore := by
    rintro s ⟨j, hj, rfl⟩ c ⟨i, hi, rfl⟩
    rw [along, restore_inMemory]
    exact ⟨j, hj, rfl⟩
  slice first past := by
    rintro c ⟨i, hi, rfl⟩
    rw [along, slice_inMemory]
    exact ⟨i, hi, rfl⟩

/-- A cursor on a text in memory that has answered any number of requests, in any order. It may have
gone back to any state in which it, or another cursor on the text, has been. -/
inductive Reached (text : List UInt8) : Cursor → Prop where
  | opened {source : Source} {options : Options} {c : Cursor} :
      source.bytes = text → source.faults = {} → ofSource source options = .ok c →
      Reached text c
  | answered {c : Cursor} (r : Request) :
      Reached text c → (∀ s, r ≠ .restore s) → Reached text (r.answer c).2
  | restored {c saved : Cursor} :
      Reached text c → Reached text saved →
      Reached text ((Request.restore saved.state).answer c).2

theorem opens_along {source : Source} {options : Options} (hbytes : source.bytes = text)
    (hfaults : source.faults = {}) :
    ofSource source options = .ok (along text options 0) := by
  obtain ⟨contents, head, faults⟩ := source
  obtain rfl : faults = {} := hfaults
  obtain rfl : contents.toList = text := hbytes
  obtain ⟨moved, hrewind⟩ := rewind_ofBytesAt contents.toList head options
  rw [ofSource, show ({ contents, head } : Source) = .ofBytesAt contents.toList head from rfl,
    hrewind]

/-- A request moves a cursor along its text, or leaves it where it is, if the states that it goes
back to are some way along. -/
theorem answer_along (options : Options) (hi : i ≤ text.length) (r : Request)
    (hr : ∀ s, r = .restore s → ∃ j, j ≤ text.length ∧ s = .along text j) :
    ∃ k, k ≤ text.length ∧ (r.answer (along text options i)).2 = along text options k := by
  have hrewind : Keeps (fun c => ∃ i, i ≤ text.length ∧ c = along text options i)
      (fun _ => False) rewind := by
    rintro c ⟨i, -, rfl⟩
    obtain ⟨moved, hrewind⟩ := rewind_along text options i
    rw [hrewind]
    exact ⟨0, Nat.zero_le _, rfl⟩
  have hkeep := (upkeep_along text options).perform_of_rewind hrewind r hr
  rcases Request.keeps_answer hkeep ⟨i, hi, rfl⟩ with ⟨e, -, hlost⟩ | hkept
  · exact hlost.elim
  · exact hkept

/-- A cursor that has been used has come some way along its text. -/
theorem reached_along (h : Reached text c) :
    ∃ options i, i ≤ text.length ∧ c = along text options i := by
  induction h with
  | opened hbytes hfaults hopen =>
      rw [opens_along hbytes hfaults] at hopen
      cases hopen
      exact ⟨_, 0, Nat.zero_le _, rfl⟩
  | answered r _ hr ih =>
      obtain ⟨options, i, hi, rfl⟩ := ih
      obtain ⟨k, hk, hanswer⟩ := answer_along options hi r fun s hs => absurd hs (hr s)
      exact ⟨options, k, hk, hanswer⟩
  | restored _ _ ih ihsaved =>
      obtain ⟨options, i, hi, rfl⟩ := ih
      obtain ⟨options', j, hj, rfl⟩ := ihsaved
      obtain ⟨k, hk, hanswer⟩ := answer_along options hi (.restore (.along text j)) fun s hs => by
        cases hs
        exact ⟨j, hj, rfl⟩
      exact ⟨options, k, hk, hanswer⟩

/-! ## Steps -/

theorem steps_along (options : Options) {n : Nat} (hn : i + n ≤ text.length) :
    steps n (along text options i) = along text options (i + n) := by
  induction n generalizing i with
  | zero => rfl
  | succ n ih =>
      obtain ⟨moved, hadvance⟩ := advance_along options (show i < text.length by omega)
      rw [steps_of_advance hadvance, ih (by omega), Nat.add_right_comm]
      rfl

/-! ## Texts -/

/-- The first byte of a prefix is the one that a cursor stands on. -/
theorem cons_prefix_drop_iff {byte : UInt8} {rest : List UInt8} :
    byte :: rest <+: text.drop i ↔ text[i]? = some byte ∧ rest <+: text.drop (i + 1) := by
  rcases Nat.lt_or_ge i text.length with hlt | hge
  · rw [List.drop_eq_getElem_cons hlt, List.cons_prefix_cons, List.getElem?_eq_getElem hlt,
      Option.some.injEq, eq_comm]
  · rw [List.drop_eq_nil_iff.2 hge, List.getElem?_eq_none_iff.2 hge, List.prefix_nil]
    exact ⟨nofun, nofun⟩

/-- A prefix may be compared in parts. -/
theorem append_prefix_drop_iff {more : List UInt8} :
    own ++ more <+: text.drop i ↔ own <+: text.drop i ∧ more <+: text.drop (i + own.length) := by
  induction own generalizing i with
  | nil => exact ⟨fun h => ⟨List.nil_prefix, h⟩, fun h => h.2⟩
  | cons byte rest ih =>
      rw [List.cons_append, cons_prefix_drop_iff, cons_prefix_drop_iff, ih, and_assoc,
        List.length_cons, Nat.add_assoc, Nat.add_comm 1]

theorem add_length_le (hi : i ≤ text.length) (h : own <+: text.drop i) :
    i + own.length ≤ text.length := by
  have hlen := h.length_le
  rw [List.length_drop] at hlen
  omega

/-- A walk over a prefix gets to where it ends, though the last step may have met the end. -/
theorem follow_of_isPrefix (options : Options) (h : own <+: text.drop i) :
    follow own (along text options i) = .ok true (along text options (i + own.length)) := by
  induction own generalizing i with
  | nil => rfl
  | cons byte rest ih =>
      obtain ⟨hbyte, hrest⟩ := cons_prefix_drop_iff.1 h
      have hcurrent : (along text options i).current = some byte :=
        (State.current_along text i).trans hbyte
      obtain ⟨moved, hadvance⟩ := advance_along options (List.getElem?_eq_some_iff.1 hbyte).1
      rw [follow_cons, if_pos hcurrent, hadvance]
      dsimp only
      rw [ih hrest, List.length_cons, Nat.add_assoc, Nat.add_comm 1]

/-- Any other walk stops somewhere along the text. -/
theorem follow_of_not_isPrefix (options : Options) (h : ¬ own <+: text.drop i) :
    ∃ j, follow own (along text options i) = .ok false (along text options j) := by
  induction own generalizing i with
  | nil => exact absurd List.nil_prefix h
  | cons byte rest ih =>
      by_cases hbyte : text[i]? = some byte
      · have hcurrent : (along text options i).current = some byte :=
          (State.current_along text i).trans hbyte
        obtain ⟨moved, hadvance⟩ := advance_along options (List.getElem?_eq_some_iff.1 hbyte).1
        obtain ⟨j, hj⟩ := ih fun hrest => h (cons_prefix_drop_iff.2 ⟨hbyte, hrest⟩)
        refine ⟨j, ?_⟩
        rw [follow_cons, if_pos hcurrent, hadvance]
        exact hj
      · have hcurrent : ¬ (along text options i).current = some byte := fun hcurrent =>
          hbyte ((State.current_along text i).symm.trans hcurrent)
        exact ⟨i, by rw [follow_cons, if_neg hcurrent]⟩

theorem acceptText_of_isPrefix (options : Options) {t : String}
    (h : Utf8.encode t <+: text.drop i) :
    acceptText t (along text options i)
      = .ok true (along text options (i + t.utf8ByteSize)) := by
  rw [acceptText_eq, follow_of_isPrefix options h]
  rfl

theorem acceptText_of_not_isPrefix (options : Options) {t : String}
    (h : ¬ Utf8.encode t <+: text.drop i) :
    acceptText t (along text options i) = .ok false (along text options i) := by
  obtain ⟨j, hj⟩ := follow_of_not_isPrefix options h
  rw [acceptText_eq, lookahead_eq, stateAfter, hj, along, along, restore_inMemory]
  rfl

theorem acceptText_along_iff (options : Options) {t : String} {c' : Cursor} :
    acceptText t (along text options i) = .ok true c'
      ↔ Utf8.encode t <+: text.drop i ∧ c' = along text options (i + t.utf8ByteSize) := by
  by_cases h : Utf8.encode t <+: text.drop i
  · rw [acceptText_of_isPrefix options h]
    constructor
    · intro heq
      cases heq
      exact ⟨h, rfl⟩
    · rintro ⟨-, rfl⟩
      rfl
  · rw [acceptText_of_not_isPrefix options h]
    exact ⟨nofun, fun hstarts => absurd hstarts.1 h⟩

/--
**A text is taken exactly where it is a prefix of what is left, and in parts as well as whole.**

Of a cursor on a text in memory, whatever it has been asked before. If the text is not a prefix, it
is not taken, and the cursor is what it was. If it is, the cursor has taken one step for each byte
of it, the text lies between where it was and where it is, and to take the text in two parts, one
after the other, would have led to the same cursor.
-/
theorem acceptText_iff_isPrefix (h : Reached text c) :
    (∀ t : String,
        ((∃ c', acceptText t c = .ok true c') ↔ Utf8.encode t <+: text.drop c.state.offset)
          ∧ (¬ Utf8.encode t <+: text.drop c.state.offset → acceptText t c = .ok false c)
          ∧ ∀ c', acceptText t c = .ok true c' →
              c' = steps t.utf8ByteSize c
                ∧ c'.state.offset = c.state.offset + t.utf8ByteSize
                ∧ slice c.state.offset (c.state.offset + t.utf8ByteSize) c'
                    = .ok (Utf8.encode t) c')
      ∧ ∀ (a b : String) (c' : Cursor),
          acceptText (a ++ b) c = .ok true c'
            ↔ ∃ c₁, acceptText a c = .ok true c₁ ∧ acceptText b c₁ = .ok true c' := by
  obtain ⟨options, i, hi, rfl⟩ := reached_along h
  have hoffset : (along text options i).state.offset = i := State.offset_along hi
  rw [hoffset]
  refine ⟨fun t => ⟨?_, acceptText_of_not_isPrefix options, ?_⟩, fun a b c' => ?_⟩
  · constructor
    · rintro ⟨c', htaken⟩
      exact ((acceptText_along_iff options).1 htaken).1
    · intro hstarts
      exact ⟨_, acceptText_of_isPrefix options hstarts⟩
  · intro c' htaken
    obtain ⟨hstarts, rfl⟩ := (acceptText_along_iff options).1 htaken
    have hend : i + t.utf8ByteSize ≤ text.length := add_length_le hi hstarts
    refine ⟨(steps_along options hend).symm, State.offset_along hend, ?_⟩
    rw [along, slice_inMemory, List.extract_eq_take_drop, Nat.add_sub_cancel_left]
    exact congrArg (fun bytes => EStateM.Result.ok bytes _)
      (List.prefix_iff_eq_take.1 hstarts).symm
  · rw [acceptText_along_iff, Utf8.encode_append, append_prefix_drop_iff,
      String.utf8ByteSize_append, ← Nat.add_assoc]
    constructor
    · rintro ⟨⟨ha, hb⟩, rfl⟩
      exact ⟨_, acceptText_of_isPrefix options ha, acceptText_of_isPrefix options hb⟩
    · rintro ⟨c₁, ha, hb⟩
      obtain ⟨hstarts, rfl⟩ := (acceptText_along_iff options).1 ha
      obtain ⟨hgoes, rfl⟩ := (acceptText_along_iff options).1 hb
      exact ⟨⟨hstarts, hgoes⟩, rfl⟩

/-- From the second byte of `a\nb` on, the rest is taken to the end of the text. -/
theorem acceptText_iff_isPrefix_end :
    ∃ c c', Reached [0x61, 0x0A, 0x62] c ∧ acceptText "\nb" c = .ok true c'
      ∧ c' = steps 2 c ∧ c'.state.isActive = false
      ∧ ∃ c₁, acceptText "\n" c = .ok true c₁ ∧ acceptText "b" c₁ = .ok true c' := by
  have hopened : Reached [0x61, 0x0A, 0x62] (along [0x61, 0x0A, 0x62] {} 0) :=
    .opened rfl rfl (ofSource_ofBytes _ {})
  have hsecond := hopened.answered .advance nofun
  obtain ⟨htexts, hparts⟩ := acceptText_iff_isPrefix hsecond
  obtain ⟨hiff, -, htaken⟩ := htexts "\nb"
  obtain ⟨c', haccept⟩ := hiff.2 (by decide)
  obtain ⟨hsteps, -⟩ := htaken c' haccept
  exact ⟨_, c', hsecond, haccept, hsteps, by rw [hsteps]; rfl, (hparts "\n" "b" c').1 haccept⟩

/-! ## Runs -/

/-- In memory there is nothing to interrupt a run. -/
theorem takeWhile_along (options : Options) {p : UInt8 → Bool} {run : List UInt8}
    (hrun : (text.drop i).takeWhile p = run) :
    takeWhile p (along text options i) = .ok run (along text options (i + run.length)) :=
  @takeWhileFrom_readable text {} p options run i [] hrun nofun

/-- What suits is taken by a run, if it is a prefix. -/
theorem prefix_takeWhile {p : UInt8 → Bool} {bytes : List UInt8} (h : own <+: bytes)
    (hown : ∀ byte ∈ own, p byte = true) : own <+: bytes.takeWhile p := by
  obtain ⟨rest, rfl⟩ := h
  rw [List.takeWhile_append_of_pos hown]
  exact List.prefix_append _ _

/-- Where the text has nothing more that suits, a cursor stands on a byte that does not suit, or has
met the end. -/
theorem along_stops (options : Options) (hi : i ≤ text.length) {p : UInt8 → Bool}
    (hstop : (text[i]?).filter p = none) :
    (∃ byte, (along text options i).current = some byte ∧ text[i]? = some byte ∧ p byte = false)
      ∨ (along text options i).state.isActive = false ∧ i = text.length := by
  cases hnext : text[i]? with
  | some byte =>
      rw [hnext, Option.filter_eq_none_iff] at hstop
      refine .inl ⟨byte, (State.current_along text i).trans hnext, rfl, ?_⟩
      exact Bool.eq_false_iff.2 (hstop byte rfl)
  | none =>
      obtain rfl : i = text.length := Nat.le_antisymm hi (List.getElem?_eq_none_iff.1 hnext)
      refine .inr ⟨Bool.eq_false_iff.2 fun hactive => ?_, rfl⟩
      exact Nat.lt_irrefl _ ((State.isActive_along_iff text _).1 hactive)

/--
**A run is the longest prefix of what is left that suits, and the text between the two states.**

Of a cursor on a text in memory, whatever it has been asked before. The cursor has taken one step
for each byte of the run, and stands on the first byte that does not suit, or has met the end. To
take a run from there takes nothing, and changes nothing.
-/
theorem takeWhile_longest (h : Reached text c) (p : UInt8 → Bool) :
    ∃ run c', takeWhile p c = .ok run c'
      ∧ run <+: text.drop c.state.offset
      ∧ (∀ byte ∈ run, p byte = true)
      ∧ (∀ own, own <+: text.drop c.state.offset → (∀ byte ∈ own, p byte = true) → own <+: run)
      ∧ c' = steps run.length c
      ∧ c'.state.offset = c.state.offset + run.length
      ∧ ((∃ byte, c'.current = some byte ∧ text[c'.state.offset]? = some byte ∧ p byte = false)
          ∨ c'.state.isActive = false ∧ c'.state.offset = text.length)
      ∧ slice c.state.offset c'.state.offset c' = .ok run c'
      ∧ takeWhile p c' = .ok [] c' := by
  obtain ⟨options, i, hi, rfl⟩ := reached_along h
  have hoffset : (along text options i).state.offset = i := State.offset_along hi
  obtain ⟨run, hrun⟩ : ∃ run, (text.drop i).takeWhile p = run := ⟨_, rfl⟩
  obtain ⟨hend, hextract, hstop⟩ := extract_run hi hrun
  have hoffset' : (along text options (i + run.length)).state.offset = i + run.length :=
    State.offset_along hend
  have hstarts : run <+: text.drop i := hrun ▸ List.takeWhile_prefix p
  rw [hoffset]
  refine ⟨run, _, takeWhile_along options hrun, hstarts, fun byte hmem => ?_,
    fun own hown hall => hrun ▸ prefix_takeWhile hown hall, (steps_along options hend).symm,
    hoffset', ?_, ?_, ?_⟩
  · rw [← hrun] at hmem
    exact List.mem_takeWhile_imp hmem
  · rw [hoffset']
    exact along_stops options hend hstop
  · rw [hoffset', along, slice_inMemory, hextract]
  · have hrest : (text.drop (i + run.length)).takeWhile p = [] := by
      rw [← List.head?_eq_none_iff, head?_run, hstop]
    exact takeWhile_along options hrest

/-- The digits of `a12` are taken to the end of the text, from the byte after the first. -/
theorem takeWhile_longest_digits :
    ∃ c c', Reached [0x61, 0x31, 0x32] c
      ∧ takeWhile Literal.isDigit c = .ok [0x31, 0x32] c'
      ∧ c' = steps 2 c ∧ c'.state.isActive = false
      ∧ slice 1 3 c' = .ok [0x31, 0x32] c'
      ∧ takeWhile Literal.isDigit c' = .ok [] c' := by
  have hopened : Reached [0x61, 0x31, 0x32] (along [0x61, 0x31, 0x32] {} 0) :=
    .opened rfl rfl (ofSource_ofBytes _ {})
  have hsecond := hopened.answered .advance nofun
  obtain ⟨run, c', htake, -, -, -, hsteps, -, -, hslice, hagain⟩ :=
    takeWhile_longest hsecond Literal.isDigit
  have hrun : takeWhile Literal.isDigit (along [0x61, 0x31, 0x32] {} 1)
      = .ok [0x31, 0x32] (along [0x61, 0x31, 0x32] {} 3) := takeWhile_along {} rfl
  cases htake.symm.trans hrun
  exact ⟨_, _, hsecond, htake, hsteps, rfl, hslice, hagain⟩

end SeekParse.Cursor
