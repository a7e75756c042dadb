import SeekParse.Cursor.State

/-!
# The place of a byte in a text

A cursor counts lines and columns as it goes, byte by byte. This file says what the counts come to
without going: the line counts the line feeds before a byte, and the column counts the bytes since
the last of them. So the place of a byte depends on the text alone, and not on the way the cursor
came.

* `State.after_concat`: after any bytes, the counts are those of the last byte's place. There is no
  bound on the length of the text: both sides wrap alike.
-/

namespace SeekParse

/-- The place of the byte that comes after these. -/
def Location.after (before : List UInt8) : Location where
  line := UInt32.ofNat (before.count lineFeed + 1)
  column := UInt32.ofNat ((before.reverse.takeWhile (· != lineFeed)).length + 1)

namespace Location

/-- After a line feed the next line begins. -/
theorem after_concat_lineFeed (before : List UInt8) :
    after (before ++ [lineFeed]) = { line := (after before).line + 1, column := 1 } := by
  simp [after, UInt32.ofNat_add]

/-- After any other byte the line goes on. -/
theorem after_concat_of_ne {byte : UInt8} (h : byte ≠ lineFeed) (before : List UInt8) :
    after (before ++ [byte]) =
      { line := (after before).line, column := (after before).column + 1 } := by
  simp [after, UInt32.ofNat_add, h]

end Location

namespace Cursor.State

/-- The state once these bytes have been read, none having been read before. -/
def after (read : List UInt8) : State := read.foldl next initial

theorem after_nil : after [] = initial := rfl

theorem after_append_singleton (read : List UInt8) (byte : UInt8) :
    after (read ++ [byte]) = (after read).next byte := by
  simp [after]

/-- What a state is after bytes of which `byte` was the last. -/
theorem after_concat (before : List UInt8) (byte : UInt8) :
    after (before ++ [byte]) =
      { position := before.length + 1
        line := (Location.after before).line
        column := (Location.after before).column
        focus := .on byte } := by
  -- from the end backwards, since the last byte before decides whether a line begins
  obtain ⟨reversed, rfl⟩ : ∃ reversed, before = List.reverse reversed :=
    ⟨before.reverse, by simp⟩
  induction reversed generalizing byte with
  | nil => rfl
  | cons last reversed ih =>
    rw [List.reverse_cons, after_append_singleton, ih last]
    by_cases h : last = lineFeed
    · subst h
      rw [Location.after_concat_lineFeed]
      simp [next, current]
    · rw [Location.after_concat_of_ne h]
      simp [next, current, h]

end Cursor.State

end SeekParse
