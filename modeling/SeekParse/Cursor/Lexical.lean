import SeekParse.Cursor.Basic
import SeekParse.Failure

/-!
# Reading lexemes

Three ways to ask for a text or for one byte of a set at the current byte:

* a *probe* only answers, and leaves the cursor where it is;
* `accept…` takes what was asked for, or nothing at all;
* `expect…` takes it, or fails with a diagnostic that quotes what is there instead.

Texts and sets are taken as their UTF-8 bytes. A set is a set of bytes: of a character that takes
several, each alone is in the set.

`takeWhile` takes the longest run of bytes of one kind. It can fail halfway through the run, and
then the bytes before the failure stay taken.
-/

namespace SeekParse

/-- Computations on a cursor, which fail if its source does or if the input does not fit. -/
abbrev ParseM := EStateM Failure Cursor

/-- A failure of the source is a failure of whatever was to be read from it. -/
instance : MonadLift CursorM ParseM := ⟨EStateM.adaptExcept Failure.source⟩

namespace Cursor

/-! ## Texts -/

/-- Advance over these bytes as long as the input has them, and say whether it had them all. The
cursor is left where the walk stopped. -/
def follow : List UInt8 → CursorM Bool
  | [] => return true
  | byte :: rest => do
    if (← get).current = some byte then
      let _ ← advance
      follow rest
    else
      return false

/-- The length in bytes of a text, if the input goes on with it here. -/
def probeText (text : String) : CursorM (Option Nat) := do
  let found ← lookahead (follow (Utf8.encode text))
  return if found then some text.utf8ByteSize else none

/-- Take a text, if the input goes on with it here. -/
def acceptText (text : String) : CursorM Bool := do
  let start ← save
  match ← attempt (follow (Utf8.encode text)) with
  | .ok true => return true
  | outcome =>
    -- as in a lookahead, a failure to go back hides what came before it
    restore start
    ofExcept outcome

/-- Take a text, or fail. The excerpt is wider than usual by the text that was expected. -/
def expectText (text : String) : ParseM Unit := do
  if ← acceptText text then
    return
  let width := (← get).options.excerptWidth
  let found ← excerpt (text.utf8ByteSize + width)
  let d ← diagnose .unexpectedCharacter s!"expected \"{text}\", but found '{found}' instead"
  throw (.mismatch (d.withExcerpt found))

/-! ## Single bytes -/

/-- Whether the current byte is one of a set. -/
def atOneOf (c : Cursor) (set : String) : Bool :=
  c.current.any (Utf8.encode set).contains

/-- Take the current byte, if it is one of a set. -/
def acceptOneOf (set : String) : CursorM Bool := do
  if (← get).atOneOf set then
    let _ ← advance
    return true
  else
    return false

/-- Take one byte of a set, or fail, with a message of the caller's if there is one. -/
def expectOneOf (set : String) (message : Option String) : ParseM Unit := do
  if ← acceptOneOf set then
    return
  let width := (← get).options.excerptWidth
  let found ← excerpt width
  -- the diagnostic reads its excerpt for itself, even though it is the same one
  let d ← diagnose .unexpectedCharacter
    (message.getD s!"expected one of '{set}' but found '{found}'")
  throw (.mismatch d)

/-! ## Runs -/

/-- Take the longest run of bytes that satisfy `p`, after those `taken` so far, the last first. -/
def takeWhileFrom (p : UInt8 → Bool) (taken : List UInt8) (c : Cursor) :
    EStateM.Result SourceError Cursor (List UInt8) :=
  match _ : c.current with
  | none => .ok taken.reverse c
  | some byte =>
    if p byte then
      match _ : advance c with
      | .ok _ next => takeWhileFrom p (byte :: taken) next
      | .error e next => .error e next
    else
      .ok taken.reverse c
termination_by c.unread
decreasing_by exact unread_lt_of_advance (State.isActive_of_current ‹_›) ‹_›

/-- Take the longest run of bytes that satisfy `p`. -/
def takeWhile (p : UInt8 → Bool) : CursorM (List UInt8) := takeWhileFrom p []

/-- A run goes on as long as there is a current byte that satisfies `p`. -/
theorem takeWhileFrom_eq (p : UInt8 → Bool) (taken : List UInt8) (c : Cursor) :
    takeWhileFrom p taken c =
      match c.current.filter p with
      | none => .ok taken.reverse c
      | some byte =>
        match advance c with
        | .ok _ next => takeWhileFrom p (byte :: taken) next
        | .error e next => .error e next := by
  rw [takeWhileFrom]
  split
  · rename_i h
    rw [h]
    rfl
  · rename_i byte h
    rw [h]
    by_cases hp : p byte
    · rw [if_pos hp, Option.filter_some, if_pos hp]
      dsimp only
      split <;> rename_i ha <;> rw [ha]
    · rw [if_neg hp, Option.filter_some, if_neg hp]

end Cursor

end SeekParse
