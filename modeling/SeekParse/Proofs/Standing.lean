import SeekParse.Cursor.Place

/-!
# Where a cursor can stand in a text

A cursor that only ever reads a text, and goes back to states it has been in, has few states to be
in: one before the first byte, one on each byte, and one at the end. `State.along` computes the
last two from the text and an offset. It is what the proofs about reading work with, because
reading on is then `i + 1` and nothing else.

`State.Canon` says the same thing without computing it: which position, which byte, which line and
which column. It is what the proofs about reading are *for*. Lines and columns are words there that
count, so it speaks of texts short enough for the words not to wrap. Some of what it says the type
of states carries already: that `lastOffset` is one less than the position, and that a state at the
end has no current byte. It says so all the same, since it describes a state in full.

* `State.canon_along`: what `along` computes is as `Canon` says.
-/

namespace SeekParse

/-! ## Lines and columns, counted -/

/-- Which column the byte after these stands in. Columns are counted from the last line feed before
it; in the first line there is none, and they are counted from one. -/
inductive ColumnAfter (before : List UInt8) : Nat → Prop where
  | firstLine : lineFeed ∉ before → ColumnAfter before (before.length + 1)
  | pastLineFeed {j : Nat} : before[j]? = some lineFeed →
      (∀ j', j < j' → before[j']? ≠ some lineFeed) → ColumnAfter before (before.length - j)

theorem columnAfter_takeWhile (before : List UInt8) :
    ColumnAfter before ((before.reverse.takeWhile (· != lineFeed)).length + 1) := by
  -- from the end backwards, since the line feed that counts is the last one
  obtain ⟨reversed, rfl⟩ : ∃ reversed, before = List.reverse reversed :=
    ⟨before.reverse, by simp⟩
  rw [List.reverse_reverse]
  induction reversed with
  | nil => exact .firstLine (by simp)
  | cons last reversed ih =>
      rw [List.reverse_cons]
      by_cases h : last = lineFeed
      · subst h
        have hcol : ColumnAfter (reversed.reverse ++ [lineFeed])
            ((reversed.reverse ++ [lineFeed]).length - reversed.reverse.length) := by
          refine .pastLineFeed (by simp) ?_
          intro j' hj'
          rw [List.getElem?_eq_none (by simp at hj' ⊢; omega)]
          simp
        simpa using hcol
      · have hcount : ((last :: reversed).takeWhile (· != lineFeed)).length + 1
            = (reversed.takeWhile (· != lineFeed)).length + 1 + 1 := by
          simp [h]
        rw [hcount]
        generalize (reversed.takeWhile (· != lineFeed)).length + 1 = column at ih ⊢
        cases ih with
        | firstLine hno =>
            have hcol : ColumnAfter (reversed.reverse ++ [last])
                ((reversed.reverse ++ [last]).length + 1) := by
              refine .firstLine ?_
              rw [List.mem_append, List.mem_singleton]
              rintro (hm | hm)
              · exact hno hm
              · exact h hm.symm
            simpa using hcol
        | @pastLineFeed j hj hlast =>
            have hlt : j < reversed.reverse.length := (List.getElem?_eq_some_iff.1 hj).1
            have hcol : ColumnAfter (reversed.reverse ++ [last])
                ((reversed.reverse ++ [last]).length - j) := by
              refine .pastLineFeed (by rw [List.getElem?_append_left hlt]; exact hj) ?_
              intro j' hj'
              rcases Nat.lt_trichotomy j' reversed.reverse.length with hlt' | heq | hgt
              · rw [List.getElem?_append_left hlt']
                exact hlast j' hj'
              · rw [heq]
                simpa using h
              · rw [List.getElem?_eq_none (by simp at hgt ⊢; omega)]
                simp
            have hlen : (reversed.reverse ++ [last]).length - j
                = reversed.reverse.length - j + 1 := by
              rw [List.length_append, List.length_singleton]
              omega
            rw [hlen] at hcol
            exact hcol

/-- `l` is where byte `i` of a text stands, in line and column. -/
structure Location.Marks (l : Location) (text : List UInt8) (i : Nat) : Prop where
  /-- One line more than there are line feeds before the byte. -/
  line : l.line.toNat = 1 + (text.take i).count lineFeed
  /-- The column of the byte in its line. -/
  column : ColumnAfter (text.take i) l.column.toNat

/-- The words that count lines and columns do not wrap in a text that they can count. -/
theorem Location.marks_after {text : List UInt8} {i : Nat} (hi : i < text.length)
    (hlen : text.length < UInt32.size) : (Location.after (text.take i)).Marks text i := by
  have hbefore : (text.take i).length = i := List.length_take_of_le (Nat.le_of_lt hi)
  constructor
  · have hcount : (text.take i).count lineFeed ≤ i := by
      have := List.count_le_length (a := lineFeed) (l := text.take i)
      omega
    rw [Location.after, UInt32.toNat_ofNat_of_lt' (by omega), Nat.add_comm]
  · have hrun : ((text.take i).reverse.takeWhile (· != lineFeed)).length ≤ i := by
      have := (List.takeWhile_sublist (l := (text.take i).reverse) (· != lineFeed)).length_le
      rw [List.length_reverse] at this
      omega
    have hcol := columnAfter_takeWhile (text.take i)
    rw [Location.after, UInt32.toNat_ofNat_of_lt' (by omega)]
    exact hcol

namespace Cursor.State

/-! ## The states of a text -/

/-- Where a cursor stands that has come this far into a text: on the byte there, or, when there is
none, at the end. -/
def along (text : List UInt8) (i : Nat) : State :=
  if i < text.length then after (text.take (i + 1)) else (after text).atEnd

theorem along_of_getElem? {text : List UInt8} {i : Nat} {byte : UInt8}
    (h : text[i]? = some byte) :
    along text i =
      { position := i + 1
        line := (Location.after (text.take i)).line
        column := (Location.after (text.take i)).column
        focus := .on byte } := by
  obtain ⟨hi, hbyte⟩ := List.getElem?_eq_some_iff.1 h
  have htake : text.take (i + 1) = text.take i ++ [byte] := by
    rw [List.take_add_one, h]
    rfl
  rw [along, if_pos hi, htake, after_concat, List.length_take_of_le (Nat.le_of_lt hi)]

theorem along_of_le {text : List UInt8} {i : Nat} (h : text.length ≤ i) :
    along text i = (after text).atEnd := by
  rw [along, if_neg (Nat.not_lt.2 h)]

theorem position_after (text : List UInt8) : (after text).position = text.length := by
  rcases List.eq_nil_or_concat text with rfl | ⟨before, byte, rfl⟩
  · rfl
  · rw [List.concat_eq_append, after_concat, List.length_append]
    rfl

/-- A cursor stands on the byte that is there, if one is. -/
@[simp] theorem current_along (text : List UInt8) (i : Nat) :
    (along text i).current = text[i]? := by
  cases h : text[i]? with
  | some byte =>
      rw [along_of_getElem? h]
      rfl
  | none =>
      rw [along_of_le (List.getElem?_eq_none_iff.1 h)]
      rfl

theorem position_along_of_lt {text : List UInt8} {i : Nat} (h : i < text.length) :
    (along text i).position = i + 1 := by
  rw [along_of_getElem? (List.getElem?_eq_getElem h)]

theorem isActive_along_of_lt {text : List UInt8} {i : Nat} (h : i < text.length) :
    (along text i).isActive = true := by
  rw [along_of_getElem? (List.getElem?_eq_getElem h)]
  rfl

/-- Past the last byte the end has been met. -/
theorem isActive_along_iff (text : List UInt8) (i : Nat) :
    (along text i).isActive = true ↔ i < text.length := by
  constructor
  · intro hactive
    by_cases hlt : i < text.length
    · exact hlt
    · rw [along_of_le (Nat.not_lt.1 hlt)] at hactive
      cases hactive
  · exact isActive_along_of_lt

/-- The offset is how far the cursor has come. -/
theorem offset_along {text : List UInt8} {i : Nat} (h : i ≤ text.length) :
    (along text i).offset = i := by
  rcases Nat.lt_or_eq_of_le h with hlt | rfl
  · rw [offset, isActive_along_of_lt hlt, if_pos rfl, position_along_of_lt hlt]
    rfl
  · rw [along_of_le (Nat.le_refl _)]
    exact position_after text

/-! ## Reading on -/

/-- The first byte read. -/
theorem next_initial {text : List UInt8} {byte : UInt8} (h : text[0]? = some byte) :
    initial.next byte = along text 0 := by
  rw [along_of_getElem? h]
  rfl

/-- No byte to read. -/
theorem atEnd_initial {text : List UInt8} (h : text[0]? = none) :
    initial.atEnd = along text 0 := by
  have hnil : text = [] := by
    rw [List.getElem?_eq_none_iff] at h
    exact List.eq_nil_of_length_eq_zero (Nat.le_zero.1 h)
  subst hnil
  rfl

/-- The next byte read. -/
theorem next_along {text : List UInt8} {i : Nat} {byte : UInt8} (h : text[i + 1]? = some byte) :
    (along text i).next byte = along text (i + 1) := by
  obtain ⟨hi, hbyte⟩ := List.getElem?_eq_some_iff.1 h
  have htake : text.take (i + 1 + 1) = text.take (i + 1) ++ [byte] := by
    rw [List.take_add_one (i := i + 1), h]
    rfl
  rw [along, along, if_pos (by omega), if_pos hi, htake, after_append_singleton]

/-- The end met. -/
theorem atEnd_along {text : List UInt8} {i : Nat} (hi : i < text.length)
    (h : text[i + 1]? = none) : (along text i).atEnd = along text (i + 1) := by
  rw [List.getElem?_eq_none_iff] at h
  have hlen : text.length = i + 1 := by omega
  rw [along_of_le h, along, if_pos hi, ← hlen, List.take_length]

/-- Where a cursor stands is settled by the text up to the byte it stands on. -/
theorem along_congr {text text' : List UInt8} {i j : Nat} (hij : i ≤ j)
    (hj : j < text.length) (h : text.take (j + 1) = text'.take (j + 1)) :
    along text i = along text' i := by
  have hj' : j < text'.length := by
    have := congrArg List.length h
    simp only [List.length_take] at this
    omega
  have htake : text.take (i + 1) = text'.take (i + 1) := by
    have := congrArg (List.take (i + 1)) h
    rwa [List.take_take, List.take_take, Nat.min_eq_left (by omega)] at this
  rw [along, along, if_pos (by omega), if_pos (by omega), htake]

/-! ## The states of a text, described -/

/-- What a state says that stands on byte `k - 1` of a text, the `k`-th. -/
structure OnByte (text : List UInt8) (k : Nat) (s : State) : Prop where
  one_le : 1 ≤ k
  le_length : k ≤ text.length
  position : s.position = k
  /-- By the definition of `State.lastOffset` this says no more than the position does. -/
  lastOffset : s.lastOffset = (k : Int) - 1
  current : s.current = text[k - 1]?
  isActive : s.isActive = true
  location : s.location.Marks text (k - 1)

/-- What a state says that stands at the end of a text. It is placed at the last byte. -/
structure AtEnd (text : List UInt8) (s : State) : Prop where
  position : s.position = text.length
  /-- As in `OnByte`, this follows the position. -/
  lastOffset : s.lastOffset = (text.length : Int) - 1
  /-- Any state that is not active has none, by its `Focus`. -/
  current : s.current = none
  isActive : s.isActive = false
  location : text ≠ [] → s.location.Marks text (text.length - 1)
  /-- With no last byte, where a cursor is before the first. -/
  location_nil : text = [] → s.location = { line := 1, column := 0 }

/-- The states that a text has: before it, on each of its bytes, and at its end. -/
inductive Canon (text : List UInt8) : State → Prop where
  | initial : Canon text { position := 0, line := 1, column := 0, focus := .start }
  | onByte {k : Nat} {s : State} : OnByte text k s → Canon text s
  | atEnd {s : State} : AtEnd text s → Canon text s

theorem onByte_along {text : List UInt8} {i : Nat} (hi : i < text.length)
    (hlen : text.length < UInt32.size) : OnByte text (i + 1) (along text i) where
  one_le := Nat.le_add_left 1 i
  le_length := hi
  position := position_along_of_lt hi
  lastOffset := by rw [lastOffset, position_along_of_lt hi]
  current := current_along text i
  isActive := isActive_along_of_lt hi
  location := by
    rw [along_of_getElem? (List.getElem?_eq_getElem hi)]
    exact Location.marks_after hi hlen

theorem atEnd_along_length {text : List UInt8} (hlen : text.length < UInt32.size) :
    AtEnd text (along text text.length) := by
  rw [along_of_le (Nat.le_refl _)]
  refine ⟨position_after text, ?_, rfl, rfl, ?_, ?_⟩
  · show ((after text).position : Int) - 1 = _
    rw [position_after]
  · intro hne
    have hpos : 0 < text.length := List.length_pos_iff.2 hne
    have htext : text = text.take (text.length - 1 + 1) := by
      rw [Nat.sub_add_cancel hpos, List.take_length]
    have hloc : (after text).atEnd.location = (along text (text.length - 1)).location := by
      rw [along, if_pos (by omega), ← htext]
      rfl
    rw [hloc]
    exact (onByte_along (by omega) hlen).location
  · rintro rfl
    rfl

/-- **What is computed is as described.** -/
theorem canon_along {text : List UInt8} {i : Nat} (hi : i ≤ text.length)
    (hlen : text.length < UInt32.size) : Canon text (along text i) := by
  rcases Nat.lt_or_eq_of_le hi with hlt | rfl
  · exact .onByte (onByte_along hlt hlen)
  · exact .atEnd (atEnd_along_length hlen)

end Cursor.State

end SeekParse
