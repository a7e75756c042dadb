import SeekParse.Cursor.State
import SeekParse.Source.Range

/-!
# Backtracking cursors

A cursor reads a source byte by byte and keeps the last byte as the current one. It holds no bytes
back: to look further ahead is to read on and then go back, which moves the head of the source. A
cursor counts its own position and never asks the source, so keeping a state is free, and going back
to one takes one seek.

On a source that fails, what matters is what a failure leaves behind:

* a failed `advance` leaves the state as it was;
* a failed `restore` leaves the state as it was too, but the head of the source may have moved;
* `lookahead` always tries to go back. If it cannot, that failure is the one reported, whatever
  else had failed before, because it is the one that the caller now has to deal with.

Each step of an active cursor either reads one of the bytes ahead or meets their end, so it lowers
`unread` (`unread_lt_of_advance`). Every loop in this library ends for that reason.
-/

namespace SeekParse

namespace Cursor

/-- What can be set for a cursor. -/
structure Options where
  /-- How many bytes of input a diagnostic quotes. -/
  excerptWidth : Nat := 10
  deriving DecidableEq, Repr, Inhabited

end Cursor

/-- A reader on a source. -/
structure Cursor where
  /-- What it reads. Its head is where the state has it, unless a seek has failed since. -/
  source : Source
  /-- How far it has come. -/
  state : Cursor.State := .initial
  options : Cursor.Options := {}
  deriving DecidableEq, Repr, Inhabited

/-- Computations on a cursor, which fail only if its source does. -/
abbrev CursorM := EStateM SourceError Cursor

namespace Cursor

/-- The current byte, if there is one. -/
def current (c : Cursor) : Option UInt8 := c.state.current

/-- The place of the byte read last. -/
def location (c : Cursor) : Location := c.state.location

/-- The most steps that a cursor can still take: one for each byte ahead, and one to meet the
end. -/
def unread (c : Cursor) : Nat := c.source.ahead + c.state.isActive.toNat

/-! ## Moving -/

/-- A computation on the source of a cursor. -/
def onSource (x : SourceM α) : CursorM α := fun c =>
  match x c.source with
  | .ok a source => .ok a { c with source }
  | .error e source => .error e { c with source }

/-- The state of the cursor, to go back to. -/
def save : CursorM State := return (← get).state

/-- Go back to a state that was saved. -/
def restore (state : State) : CursorM Unit := do
  onSource (Source.seekTo state.position)
  modify ({ · with state })

/-- Make the next byte current, and say whether there was one. A cursor at the end stays there,
without asking its source again. -/
def advance : CursorM Bool := fun c =>
  if c.state.isActive then
    match c.source.read with
    | .ok (some byte) source => .ok true { c with source, state := c.state.next byte }
    | .ok none source => .ok false { c with source, state := c.state.atEnd }
    | .error fault source => .error (.read c.state.position fault) { c with source }
  else
    .ok false c

/-- Go back to before the first byte, and read it. -/
def rewind : CursorM Bool := do
  restore .initial
  advance

/-- A cursor on the first byte of a source. It fails if the source cannot be positioned there, or
cannot be read. -/
def ofSource (source : Source) (options : Options) : Except SourceError Cursor :=
  match rewind { source, options } with
  | .ok _ c => .ok c
  | .error e _ => .error e.atStart

/-- A step of an active cursor lowers what is unread: a byte is behind the head that was ahead of
it, or the end has been met. -/
theorem unread_lt_of_advance {c c' : Cursor} {moved : Bool} (hc : c.state.isActive = true)
    (h : advance c = .ok moved c') : c'.unread < c.unread := by
  unfold advance at h
  rw [if_pos hc] at h
  split at h
  · rename_i byte source hr
    obtain ⟨hlt, rfl⟩ := Source.read_eq_some hr
    cases h
    simp only [unread, Source.ahead, hc, State.isActive_next]
    omega
  · rename_i source hr
    obtain rfl := Source.read_eq_none hr
    cases h
    simp only [unread, hc, State.isActive_atEnd]
    exact Nat.lt_succ_self _
  · cases h

/-! ## Looking without moving -/

/-- Run a computation for its outcome, keeping what it did to the cursor also if it failed. -/
def attempt (x : CursorM α) : CursorM (Except SourceError α) := fun c =>
  match x c with
  | .ok a c => .ok (.ok a) c
  | .error e c => .ok (.error e) c

/-- Run a computation and then go back to where it started. -/
def lookahead (x : CursorM α) : CursorM α := do
  let start ← save
  let outcome ← attempt x
  restore start
  ofExcept outcome

/-- The byte that `advance` would make current. -/
def peek : CursorM (Option UInt8) :=
  lookahead do
    let _ ← advance
    return (← get).current

/-- The bytes of the source from one offset up to another, or up to its end. The state stays as it
is, and the head of the source goes back to where the state has it. -/
def slice (first past : Nat) : CursorM (List UInt8) := do
  -- nothing is asked of the source for an empty slice
  if past ≤ first then
    return []
  let state ← save
  let outcome ← attempt (onSource (Source.readRange first past))
  onSource (Source.seekTo state.position)
  ofExcept outcome

/-- The bytes from the one current in the first state to the one current in the second. -/
def between (first last : State) : CursorM (List UInt8) :=
  slice (first.position - 1) last.position

/-- The input from the current byte on, this many bytes wide, as text on one line. -/
def excerpt (width : Nat) : CursorM String := do
  let start := (← save).offset
  return oneLine (← slice start (start + width))

/-- A diagnostic about the current byte, with an excerpt as wide as the options say. -/
def diagnose (code : ErrorCode) (message : String) : CursorM Diagnostic := do
  let c ← get
  let quoted ← excerpt c.options.excerptWidth
  return { code, message, location := c.location, excerpt := some quoted }

/-! ## Stepping through the input -/

/-- Advance up to `count` times, as long as there is a byte to make current, after the states
`passed` so far, the last first. -/
def walkFrom (passed : List State) :
    (count : Nat) → Cursor → List State × Option SourceError × Cursor
  | 0, c => (passed.reverse, none, c)
  | count + 1, c =>
    match advance c with
    | .ok true c => walkFrom (c.state :: passed) count c
    | .ok false c => (passed.reverse, none, c)
    | .error e c => (passed.reverse, some e, c)

/-- Advance up to `count` times, as long as there is a byte to make current: the states passed, the
failure that ended the walk, if one did, and the cursor after it. -/
def walk (count : Nat) (c : Cursor) : List State × Option SourceError × Cursor :=
  walkFrom [] count c

end Cursor

end SeekParse
