import SeekParse.Cursor.State
import SeekParse.Expr.Basic
import SeekParse.Grammar.Mismatch

/-!
# The grammar as a machine

```text
expr    := unary (('+' | '-' | '/' | '*') unary)*
unary   := ('-' | '!') unary | primary
primary := digit+ | '(' expr ')'
```

The grammar is read by a machine with a stack of its own, so that input may nest as deeply as it is
long. The machine decides from the current byte alone, and never looks further. Its steps are pure:
`step` says whether to take the current byte, to go on without it, or to stop, and the parser does
the reading. So whatever is known about one step does not depend on the source, or on whether it
fails.

A frame is a construct that has been begun, and says what it is waiting for. The phase is what is
going on above all frames: something is expected, digits are being read, or a tree has been built
and goes to the topmost frame.

* `Machine.current_of_take`: a byte is taken only where there is one.
* `Machine.lt_of_turn`: a step that takes no byte comes closer to one that does. It enters the
  grammar further down, or takes a frame off the stack.
-/

namespace SeekParse

/-- The constructs of the grammar. -/
inductive Rule where
  | expr
  | unary
  | primary
  deriving DecidableEq, Repr, Inhabited

/-- A construct that has been begun. -/
inductive Frame where
  /-- A prefix operator, waiting for its operand. -/
  | applied (op : UnaryOp)
  /-- A chain, waiting for its next operand. The operands before, each with the operator after it,
  are listed the last first. -/
  | chain (before : List (Expr × BinaryOp))
  /-- A group opened there, waiting for what it holds and then for its end. -/
  | group (opened : Location)

/-- What goes on above the frames. -/
inductive Phase where
  /-- A construct is to start at the current byte. -/
  | expecting (rule : Rule)
  /-- A literal is being read. It started at this state, and has these digits, the last first. -/
  | digits (start : Cursor.State) (taken : List UInt8)
  /-- A tree has been built. -/
  | built (e : Expr)

/-- How far a reading of the grammar has come. -/
structure Machine where
  /-- What has been begun, the innermost first. -/
  frames : List Frame
  phase : Phase

/-- What to do next. -/
inductive Step where
  /-- Take the current byte, and go on like this. -/
  | take (next : Machine)
  /-- Go on like this with the same byte. -/
  | turn (next : Machine)
  /-- The construct is complete. -/
  | accept (e : Expr)
  /-- The input is no such construct. It is reported here, or at the state that is given. -/
  | reject (mismatch : Mismatch) (site : Option Cursor.State)

/-- The byte that opens a group. -/
def openParen : UInt8 := 0x28

/-- The byte that closes a group. -/
def closeParen : UInt8 := 0x29

/-- The tree of a chain: the operands before one, the last first, then that one, then the links
after it. -/
def Expr.ofChainAround : (before : List (Expr × BinaryOp)) → Expr → List (BinaryOp × Expr) → Expr
  | [], e, after => .ofChain e after
  | (e', op) :: before, e, after => ofChainAround before e' ((op, e) :: after)

namespace Machine

/-- A machine that is to read a construct. -/
def start (rule : Rule) : Machine := { frames := [], phase := .expecting rule }

/-- Where a construct starts. -/
def expect (frames : List Frame) (rule : Rule) (s : Cursor.State) : Step :=
  match rule with
  | .expr => .turn ⟨.chain [] :: frames, .expecting .unary⟩
  | .unary =>
    match s.current.bind UnaryOp.ofByte? with
    -- in front of an operand `-` is a prefix; after one, `deliver` takes it for a binary operator
    | some op => .take ⟨.applied op :: frames, .expecting .unary⟩
    | none => .turn ⟨frames, .expecting .primary⟩
  | .primary =>
    match s.current with
    | none => .reject (.noOperand none) none
    | some byte =>
      if Literal.isDigit byte then .take ⟨frames, .digits s [byte]⟩
      else if byte = openParen then .take ⟨.group s.location :: frames, .expecting .expr⟩
      else .reject (.noOperand (some byte)) none

/-- Inside a literal, which goes on as long as there are digits. -/
def number (frames : List Frame) (start : Cursor.State) (taken : List UInt8)
    (current : Option UInt8) : Step :=
  match current.filter Literal.isDigit with
  | some byte => .take ⟨frames, .digits start (byte :: taken)⟩
  | none =>
    match Literal.ofDigits? taken.reverse with
    | some value => .turn ⟨frames, .built (.number value)⟩
    -- the run is blamed as a whole, at its first digit
    | none => .reject (.tooLarge taken.reverse) (some start)

/-- After a tree, which goes to the topmost frame. -/
def deliver (frames : List Frame) (e : Expr) (current : Option UInt8) : Step :=
  match frames with
  | [] => .accept e
  | .applied op :: frames => .turn ⟨frames, .built (.unary op e)⟩
  | .chain before :: frames =>
    match current.bind BinaryOp.ofByte? with
    | some op => .take ⟨.chain ((e, op) :: before) :: frames, .expecting .unary⟩
    | none => .turn ⟨frames, .built (.ofChainAround before e [])⟩
  | .group opened :: frames =>
    if current = some closeParen then .take ⟨frames, .built e⟩
    else .reject (.unclosed opened current) none

/-- What to do at a state of the cursor. -/
def step (m : Machine) (s : Cursor.State) : Step :=
  match m.phase with
  | .expecting rule => expect m.frames rule s
  | .digits start taken => number m.frames start taken s.current
  | .built e => deliver m.frames e s.current

/-! ## Steps come to an end -/

/-- How many kinds of turn may still come before the next byte, or the end. -/
def rank (m : Machine) : Nat :=
  match m.phase with
  | .expecting .expr => 4
  | .expecting .unary => 3
  | .expecting .primary => 2
  | .digits .. => 1
  | .built _ => 0

/-- A byte is taken only where there is one. -/
theorem current_of_take {m next : Machine} {s : Cursor.State} (h : m.step s = .take next) :
    ∃ byte, s.current = some byte := by
  cases hc : s.current with
  | some byte => exact ⟨byte, rfl⟩
  | none =>
    obtain ⟨frames, phase⟩ := m
    cases phase with
    | expecting rule => cases rule <;> simp [step, expect, hc] at h
    | digits start taken =>
      simp only [step, number, hc, Option.filter_none] at h
      split at h <;> cases h
    | built e =>
      cases frames with
      | nil => simp [step, deliver] at h
      | cons frame frames => cases frame <;> simp [step, deliver, hc] at h

/-- Where a byte is taken, the end has not been met. -/
theorem isActive_of_take {m next : Machine} {s : Cursor.State} (h : m.step s = .take next) :
    s.isActive = true := by
  obtain ⟨byte, hbyte⟩ := current_of_take h
  exact Cursor.State.isActive_of_current hbyte

/-- A turn lowers the rank, or keeps it and takes a frame off the stack. -/
theorem lt_of_turn {m next : Machine} {s : Cursor.State} (h : m.step s = .turn next) :
    next.rank < m.rank ∨ next.rank = m.rank ∧ next.frames.length < m.frames.length := by
  obtain ⟨frames, phase⟩ := m
  cases phase with
  | expecting rule =>
    cases rule with
    | expr =>
      cases h
      exact .inl (Nat.lt_succ_self _)
    | unary =>
      simp only [step, expect] at h
      split at h <;> cases h
      exact .inl (Nat.lt_succ_self _)
    | primary =>
      simp only [step, expect] at h
      repeat' split at h
      all_goals cases h
  | digits start taken =>
    simp only [step, number] at h
    split at h
    · cases h
    · split at h <;> cases h
      exact .inl Nat.one_pos
  | built e =>
    cases frames with
    | nil => cases h
    | cons frame frames =>
      cases frame <;> simp only [step, deliver] at h <;> (try split at h) <;> cases h <;>
        exact .inr ⟨rfl, Nat.lt_succ_self _⟩

end Machine

end SeekParse
