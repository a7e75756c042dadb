import SeekParse.Diagnostic.Basic
import SeekParse.Text.OneLine

/-!
# Where a cursor stands

A cursor state is a value: it can be kept, compared and gone back to. It says how many bytes have
been read, what the last of them was, and where in the text that byte is.

The last byte read is *current*; there is none before the first read, and none once the end of the
input has been met. `Focus` has a case for each, so that a state at the end has no current byte by
its type. Loops that go on while the current byte suits them stop at the end for that reason.

The offset of the last byte is no field either: it is always one less than the position, and is
computed from it (`State.lastOffset`). That these agree, and that the end has no current byte, is
carried by the type of states, and holds of every state, also of one that no text has.

A line feed belongs to the line that it ends, so the line is counted up by the byte *after* it.
-/

namespace SeekParse

namespace Cursor

/-- What a cursor stands on. To have met the end and to have a current byte exclude each other. -/
inductive Focus where
  /-- Nothing yet: no byte has been read. -/
  | start
  /-- The byte read last. -/
  | on (byte : UInt8)
  /-- The end of the input. -/
  | finished
  deriving DecidableEq, Repr, Inhabited

/-- How far a cursor has come. -/
structure State where
  /-- How many bytes have been read, which is the offset of the next one. -/
  position : Nat
  /-- The line of the byte read last. -/
  line : UInt32
  /-- Its column, in bytes. -/
  column : UInt32
  /-- What the cursor stands on. -/
  focus : Focus
  deriving DecidableEq, Repr, Inhabited

namespace State

/-- Before the first byte. -/
def initial : State := { position := 0, line := 1, column := 0, focus := .start }

/-- The current byte, if there is one. -/
def current (s : State) : Option UInt8 :=
  match s.focus with
  | .on byte => some byte
  | .start | .finished => none

/-- Whether the end of the input has not been met yet. -/
def isActive (s : State) : Bool :=
  match s.focus with
  | .finished => false
  | .start | .on _ => true

/-- The offset of the byte read last; one before the first byte, if none was read. It follows the
position by definition. -/
def lastOffset (s : State) : Int := s.position - 1

/-- The offset of what the cursor stands on: the current byte, or the end of the input. -/
def offset (s : State) : Nat :=
  if s.isActive then s.position - 1 else s.position

/-- The place in the text of the byte read last. -/
def location (s : State) : Location := { line := s.line, column := s.column }

/-- The state after one more byte. -/
def next (s : State) (byte : UInt8) : State :=
  -- it is the byte before this one that tells whether a line has begun
  let (line, column) :=
    if s.current = some lineFeed then (s.line + 1, 1) else (s.line, s.column + 1)
  { position := s.position + 1, line, column, focus := .on byte }

/-- The state once the end of the input is met. It is still placed at the byte read last. -/
def atEnd (s : State) : State := { s with focus := .finished }

@[simp] theorem isActive_next (s : State) (byte : UInt8) : (s.next byte).isActive = true := rfl

@[simp] theorem isActive_atEnd (s : State) : s.atEnd.isActive = false := rfl

@[simp] theorem current_next (s : State) (byte : UInt8) : (s.next byte).current = some byte := rfl

@[simp] theorem current_atEnd (s : State) : s.atEnd.current = none := rfl

/-- Where there is a current byte, the end has not been met. -/
theorem isActive_of_current {s : State} {byte : UInt8} (h : s.current = some byte) :
    s.isActive = true := by
  obtain ⟨position, line, column, focus⟩ := s
  cases focus with
  | start => cases h
  | on byte => rfl
  | finished => cases h

end State

end Cursor

end SeekParse
