import SeekParse.Cursor.Lexical
import SeekParse.Grammar.Machine

/-!
# Parsing expressions

The machine of the grammar, driven by a cursor: it takes a byte by advancing, and rejects the input
by a diagnostic at the current byte. Whatever the source does, the machine only ever sees bytes that
were read; a failure of the source ends the parse as what it is.

A parse ends because each byte taken lowers what is unread, and between two bytes the machine can
turn only so often. Until it stops, it does nothing to the source but read the next byte: going
back, and reading an excerpt, are left to the report of a mismatch.
-/

namespace SeekParse

namespace Cursor

/-- Report a mismatch at the current byte. -/
def report (mismatch : Mismatch) : ParseM α := do
  let d ← diagnose mismatch.code mismatch.message
  throw (.mismatch (mismatch.help.foldl Diagnostic.withHelp d))

/-- Report a mismatch, going back first if it is to be reported at a state before. -/
def reportAt (mismatch : Mismatch) : (site : Option State) → ParseM α
  | none => report mismatch
  | some start => do
    restore start
    report mismatch

/-- Let a machine run until it stops. -/
def run (m : Machine) (c : Cursor) : EStateM.Result Failure Cursor Expr :=
  match _ : m.step c.state with
  | .accept e => .ok e c
  | .reject mismatch site => reportAt mismatch site c
  | .turn next => run next c
  | .take next =>
    match _ : advance c with
    | .ok _ c' => run next c'
    | .error e c' => .error (.source e) c'
termination_by (c.unread, m.rank, m.frames.length)
decreasing_by
  · rcases Machine.lt_of_turn ‹_› with h | ⟨h, h'⟩
    · exact .right _ (.left _ _ h)
    · rw [h]
      exact .right _ (.right _ h')
  · exact .left _ _ (unread_lt_of_advance (Machine.isActive_of_take ‹_›) ‹_›)

/-- A run goes on from one step as it would have gone on from there. -/
theorem run_eq (m : Machine) (c : Cursor) :
    run m c =
      match m.step c.state with
      | .accept e => .ok e c
      | .reject mismatch site => reportAt mismatch site c
      | .turn next => run next c
      | .take next =>
        match advance c with
        | .ok _ c' => run next c'
        | .error e c' => .error (.source e) c' := by
  rw [run]
  split
  · rename_i h
    rw [h]
  · rename_i h
    rw [h]
  · rename_i h
    rw [h]
  · rename_i h
    rw [h]
    dsimp only
    split <;> rename_i ha <;> rw [ha]

/-- Read one construct. It ends before the first byte that cannot belong to it. -/
def parse (rule : Rule) : ParseM Expr := run (.start rule)

/-- Read one expression, which has to be all the rest of the input. -/
def parseToEnd : ParseM Expr := do
  let e ← parse .expr
  match (← get).current with
  | some byte => report (.trailing byte)
  | none => return e

end Cursor

/-- What can be set for a parser. -/
structure Parser.Options extends Cursor.Options where
  /-- Whether an expression has to be all of the input, where nothing else is said. -/
  requireEnd : Bool := false
  deriving DecidableEq, Repr, Inhabited

/-- A cursor to read expressions from, with what has been set for it. -/
structure Parser where
  cursor : Cursor
  requireEnd : Bool
  deriving DecidableEq, Repr, Inhabited

namespace Parser

/-- What a parser can be asked for. -/
inductive Call where
  /-- An expression, as the options say. -/
  | parse
  /-- An expression that is all the rest of the input. -/
  | toEnd
  /-- One construct, whatever comes after it. -/
  | construct (rule : Rule)
  deriving DecidableEq, Repr, Inhabited

/-- A parser at the start of a source. -/
def ofSource (source : Source) (options : Options) : Except Failure Parser :=
  match Cursor.ofSource source options.toOptions with
  | .ok cursor => .ok { cursor, requireEnd := options.requireEnd }
  | .error e => .error (.source e)

/-- The options of a parser. -/
def options (p : Parser) : Options :=
  { p.cursor.options with requireEnd := p.requireEnd }

/-- What a call reads. -/
def Call.read (requireEnd : Bool) : Call → ParseM Expr
  | .parse => if requireEnd then Cursor.parseToEnd else Cursor.parse .expr
  | .toEnd => Cursor.parseToEnd
  | .construct rule => Cursor.parse rule

/-- Answer a call. The parser goes on from where that left it, whatever the answer. -/
def answer (call : Call) (p : Parser) : Except Failure Expr × Parser :=
  match call.read p.requireEnd p.cursor with
  | .ok e cursor => (.ok e, { p with cursor })
  | .error e cursor => (.error e, { p with cursor })

/-- The answers to a list of calls, each with the state after it, and the parser after all. -/
def answerAll : List Call → Parser → List (Except Failure Expr × Cursor.State) × Parser
  | [], p => ([], p)
  | call :: rest, p =>
    let (result, p) := p.answer call
    let (results, last) := answerAll rest p
    ((result, p.cursor.state) :: results, last)

end Parser

/-- The expression at the start of a text. -/
def parse (text : String) : Except Failure Expr := do
  let p ← Parser.ofSource (.ofText text) {}
  (p.answer .parse).1

end SeekParse
